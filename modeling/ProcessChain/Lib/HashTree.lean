import Mathlib.Algebra.Group.Nat.Defs
import Mathlib.Logic.Function.Iterate
import Mathlib.Data.List.Basic
import Mathlib.Data.Nat.Log

/-! Binary hash trees built level by level. A level is described by the texts
that are hashed on it, so that a tree is the iteration of one operation on lists
of texts: hash them, pad an odd level with the hash of the empty text, and
write every pair of neighbouring hashes as one text of the next level. The same tree
has a recursive description from its root down. -/

namespace ProcessChain.Lib.HashTree

variable {S D : Type}

def pad (filler : D) (level : List D) : List D :=
  if level.length % 2 = 0 then level else level ++ [filler]

def pairUp (node : D → D → S) : List D → List S
  | left :: right :: rest => node left right :: pairUp node rest
  | _ => []

@[simp] theorem pairUp_length (node : D → D → S) (level : List D) : (pairUp node level).length = level.length / 2 := by
  fun_induction pairUp node level with
  | case1 left right rest ih =>
    simp only [List.length_cons, ih]
    omega
  | case2 level short =>
    rcases level with _ | ⟨_, _ | ⟨_, _⟩⟩ <;> simp_all

theorem pad_length (filler : D) (level : List D) : (pad filler level).length = 2 * ((level.length + 1) / 2) := by
  unfold pad
  split
  · omega
  · simp only [List.length_append, List.length_singleton]
    omega

theorem pairUp_injective {node : D → D → S}
    (injective : ∀ {a b c d}, node a b = node c d → a = c ∧ b = d) {first second : List D}
    (firstEven : first.length % 2 = 0) (secondEven : second.length % 2 = 0)
    (same : pairUp node first = pairUp node second) : first = second := by
  fun_induction pairUp node first generalizing second with
  | case1 left right rest ih =>
    rcases second with _ | ⟨_, _ | ⟨_, others⟩⟩
    · simp [pairUp] at same
    · simp [pairUp] at same
    · simp only [pairUp, List.cons.injEq] at same
      obtain ⟨rfl, rfl⟩ := injective same.1
      rw [ih (by simp at firstEven; omega) (by simp at secondEven; omega) same.2]
  | case2 level short =>
    have lengths := congrArg List.length same
    rcases level with _ | ⟨_, _ | ⟨_, _⟩⟩
    · simp only [List.length_nil, pairUp_length] at lengths
      exact (List.eq_nil_of_length_eq_zero (by omega)).symm
    · simp at firstEven
    · exact absurd rfl (short _ _ _)

section Levels
variable (hash : S → D) (node : D → D → S) (empty : S)

/-- The texts hashed on the next level. -/
def rise (texts : List S) : List S := pairUp node (pad (hash empty) (texts.map hash))

@[simp] theorem rise_length (texts : List S) : (rise hash node empty texts).length = (texts.length + 1) / 2 := by
  simp [rise, pad_length]

/-- The loop runs at least once and ends on a level with a single text. -/
def summit (texts : List S) : List S :=
  if 1 < (rise hash node empty texts).length then summit (rise hash node empty texts)
  else rise hash node empty texts
termination_by texts.length
decreasing_by rw [rise_length] at *; omega

/-- Every text hashed while the tree is built, the empty one only where a level is padded. -/
def hashed (texts : List S) : List S :=
  texts ++ (if texts.length % 2 = 0 then [] else [empty]) ++
    if 1 < (rise hash node empty texts).length then hashed (rise hash node empty texts)
    else rise hash node empty texts
termination_by texts.length
decreasing_by rw [rise_length] at *; omega

end Levels

section TopDown
variable (hash : S → D) (node : D → D → S) (empty : S)

/-- The same tree from its root down. A right half that holds no text at all is
replaced by the filler, and there is a right half only if the left one is full. -/
def tree : Nat → List S → D
  | 0, texts => hash (texts.headD empty)
  | height + 1, texts =>
    hash (node (tree height (texts.take (2 ^ height)))
      (if texts.length ≤ 2 ^ height then hash empty else tree height (texts.drop (2 ^ height))))

/-- The number of levels above a number of texts, at least one. -/
def depth (count : Nat) : Nat := max 1 (Nat.clog 2 count)

private theorem pairUp_append {front back : List D} (even : front.length % 2 = 0) :
    pairUp node (front ++ back) = pairUp node front ++ pairUp node back := by
  fun_induction pairUp node front with
  | case1 left right rest ih =>
    simp only [List.length_cons] at even
    simp only [List.cons_append, pairUp, ih (by omega)]
  | case2 level short =>
    rcases level with _ | ⟨_, _ | ⟨_, _⟩⟩
    · rfl
    · simp at even
    · exact absurd rfl (short _ _ _)

/-- A level of even length in front is completed without regard to what follows it. -/
theorem rise_append {front back : List S} (even : front.length % 2 = 0) :
    rise hash node empty (front ++ back) = rise hash node empty front ++ rise hash node empty back := by
  have padded : pad (hash empty) ((front ++ back).map hash) = front.map hash ++ pad (hash empty) (back.map hash) := by
    have parity : (front.length + back.length) % 2 = 0 ↔ back.length % 2 = 0 := by omega
    simp only [pad, List.map_append, List.length_append, List.length_map, parity]
    split
    · rfl
    · rw [List.append_assoc]
  have front' : pad (hash empty) (front.map hash) = front.map hash := by
    rw [pad, if_pos (by rwa [List.length_map])]
  rw [rise, padded, pairUp_append node (by rwa [List.length_map]), rise, rise, front']

/-- A full subtree rises on its own. -/
theorem iterate_append (levels : Nat) {front back : List S} (full : 2 ^ levels ∣ front.length) :
    (rise hash node empty)^[levels] (front ++ back) =
      (rise hash node empty)^[levels] front ++ (rise hash node empty)^[levels] back := by
  induction levels generalizing front back with
  | zero => rfl
  | succ levels ih =>
    obtain ⟨count, length⟩ := full
    rw [Nat.pow_succ, Nat.mul_assoc, Nat.mul_left_comm] at length
    have half : 2 ^ levels ∣ (rise hash node empty front).length := by
      rw [rise_length, length]
      exact ⟨count, by omega⟩
    rw [Function.iterate_succ_apply, Function.iterate_succ_apply, Function.iterate_succ_apply,
      rise_append hash node empty (by omega), ih half]

/-- As many levels up as the tree is high there is one text left, and its hash is the tree's. -/
theorem iterate_tree (height : Nat) {texts : List S} (some : texts ≠ []) (small : texts.length ≤ 2 ^ height) :
    ∃ top, (rise hash node empty)^[height] texts = [top] ∧ hash top = tree hash node empty height texts := by
  induction height generalizing texts with
  | zero =>
    have positive := List.length_pos_iff.mpr some
    obtain ⟨top, rfl⟩ := List.length_eq_one_iff.mp (show texts.length = 1 by omega)
    exact ⟨top, rfl, rfl⟩
  | succ height ih =>
    rw [Function.iterate_succ_apply', tree]
    by_cases low : texts.length ≤ 2 ^ height
    · obtain ⟨top, single, same⟩ := ih some low
      rw [single, if_pos low, List.take_of_length_le low, ← same]
      exact ⟨_, rfl, rfl⟩
    · have left : (texts.take (2 ^ height)).length = 2 ^ height := by
        rw [List.length_take]
        omega
      have right : (texts.drop (2 ^ height)).length ≤ 2 ^ height := by
        rw [List.length_drop]
        rw [Nat.pow_succ] at small
        omega
      have leftSome : texts.take (2 ^ height) ≠ [] :=
        List.ne_nil_of_length_pos (by rw [left]; exact Nat.pow_pos (by decide))
      have rightSome : texts.drop (2 ^ height) ≠ [] :=
        List.ne_nil_of_length_pos (by rw [List.length_drop]; omega)
      obtain ⟨top, single, same⟩ := ih leftSome (by omega)
      obtain ⟨other, alone, equal⟩ := ih rightSome right
      have full : 2 ^ height ∣ (texts.take (2 ^ height)).length := ⟨1, by rw [left, Nat.mul_one]⟩
      have halves : (rise hash node empty)^[height] texts = [top] ++ [other] := by
        rw [← single, ← alone, ← iterate_append hash node empty height full, List.take_append_drop]
      have pair : rise hash node empty [top, other] = [node (hash top) (hash other)] := by simp [rise, pad, pairUp]
      rw [halves, List.singleton_append, pair, if_neg low, ← same, ← equal]
      exact ⟨_, rfl, rfl⟩

theorem summit_iterate (texts : List S) : summit hash node empty texts = (rise hash node empty)^[depth texts.length] texts := by
  fun_induction summit hash node empty texts with
  | case1 texts more ih =>
    rw [rise_length] at more
    have level : depth texts.length = depth (rise hash node empty texts).length + 1 := by
      have positive : 0 < Nat.clog 2 ((texts.length + 1) / 2) := Nat.clog_pos (by decide) more
      have step := Nat.clog_of_two_le (show 2 ≤ 2 by decide) (show 2 ≤ texts.length by omega)
      rw [rise_length, depth, depth, step, show texts.length + 2 - 1 = texts.length + 1 by omega]
      omega
    rw [ih, level, Function.iterate_succ_apply]
  | case2 texts last =>
    rw [rise_length] at last
    have level : depth texts.length = 1 := by
      have small : Nat.clog 2 texts.length ≤ 1 := Nat.clog_le_of_le_pow (by omega)
      rw [depth]
      omega
    rw [level]
    rfl

/-- The level by level construction ends with the hash of the recursive tree. -/
theorem summit_tree {texts : List S} (some : texts ≠ []) :
    (summit hash node empty texts).map hash = [tree hash node empty (depth texts.length) texts] := by
  have small : texts.length ≤ 2 ^ depth texts.length :=
    Nat.le_trans (Nat.le_pow_clog (by decide) texts.length) (Nat.pow_le_pow_right (by decide) (Nat.le_max_right 1 _))
  obtain ⟨top, single, same⟩ := iterate_tree hash node empty (depth texts.length) some small
  rw [summit_iterate, single, List.map_singleton, same]

end TopDown

/-- Two of these texts are different and have the same hash. -/
def Collision (hash : S → D) (texts : List S) : Prop :=
  ∃ first ∈ texts, ∃ second ∈ texts, first ≠ second ∧ hash first = hash second

variable {hash : S → D} {node : D → D → S} {empty : S}

/-- `height` levels above the texts stands the summit, and everything on the way is hashed. -/
structure Climb (hash : S → D) (node : D → D → S) (empty : S) (texts : List S) (height : Nat) : Prop where
  reached : summit hash node empty texts = (rise hash node empty)^[height] texts
  single : (summit hash node empty texts).length = 1
  visited : ∀ level ≤ height, ∀ text ∈ (rise hash node empty)^[level] texts, text ∈ hashed hash node empty texts
  padded : ∀ level < height, ((rise hash node empty)^[level] texts).length % 2 ≠ 0 →
    empty ∈ hashed hash node empty texts

theorem climb (hash : S → D) (node : D → D → S) (empty : S) (texts : List S) (some : texts ≠ []) : ∃ height, Climb hash node empty texts height := by
  fun_induction summit hash node empty texts with
  | case1 texts more ih =>
    obtain ⟨height, upper⟩ := ih (by intro none; simp [none] at more)
    have above : ∀ text ∈ hashed hash node empty (rise hash node empty texts), text ∈ hashed hash node empty texts := by
      intro text member
      rw [hashed, if_pos more]
      simp [member]
    refine ⟨height + 1, ?_, ?_, ?_, ?_⟩
    · rw [summit, if_pos more, upper.reached, Function.iterate_succ_apply]
    · rw [summit, if_pos more, upper.single]
    · intro level bound text member
      cases level with
      | zero =>
        rw [hashed]
        simp_all
      | succ level => exact above text (upper.visited level (by omega) text (by rwa [Function.iterate_succ_apply] at member))
    · intro level bound odd
      cases level with
      | zero =>
        rw [hashed]
        simp_all
      | succ level => exact above empty (upper.padded level (by omega) (by rwa [Function.iterate_succ_apply] at odd))
  | case2 texts last =>
    have positive := List.length_pos_iff.mpr some
    refine ⟨1, ?_, ?_, ?_, ?_⟩
    · rw [summit, if_neg last]
      rfl
    · rw [summit, if_neg last]
      simp only [rise_length] at last ⊢
      omega
    · intro level bound text member
      rw [hashed, if_neg last]
      rcases Nat.le_one_iff_eq_zero_or_eq_one.mp bound with rfl | rfl <;> simp_all
    · intro level bound odd
      obtain rfl : level = 0 := by omega
      rw [hashed]
      simp_all

private theorem mem_pad {filler label : D} {level : List D} (member : label ∈ pad filler level) :
    label ∈ level ∨ label = filler := by
  simp only [pad] at member
  split at member
  · exact Or.inl member
  · simpa using member

private theorem mem_pairUp {level : List D} {text : S} (member : text ∈ pairUp node level) :
    ∃ left ∈ level, ∃ right ∈ level, text = node left right := by
  fun_induction pairUp node level with
  | case1 left right rest ih =>
    rcases List.mem_cons.mp member with rfl | member
    · exact ⟨left, by simp, right, by simp, rfl⟩
    · obtain ⟨first, inside, second, also, rfl⟩ := ih member
      exact ⟨first, by simp [inside], second, by simp [also], rfl⟩
  | case2 => simp at member

theorem mem_rise {texts : List S} {text : S} (member : text ∈ rise hash node empty texts) :
    ∃ left right, text = node (hash left) (hash right) := by
  have labels : ∀ label ∈ pad (hash empty) (texts.map hash), ∃ source, label = hash source := by
    intro label inside
    rcases mem_pad inside with inside | rfl
    · obtain ⟨source, _, rfl⟩ := List.mem_map.mp inside
      exact ⟨source, rfl⟩
    · exact ⟨empty, rfl⟩
  obtain ⟨first, inside, second, also, rfl⟩ := mem_pairUp member
  obtain ⟨left, rfl⟩ := labels first inside
  obtain ⟨right, rfl⟩ := labels second also
  exact ⟨left, right, rfl⟩

/-- What is hashed for a tree: its texts, the empty one and the inner nodes. -/
theorem mem_hashed {texts : List S} {text : S} (member : text ∈ hashed hash node empty texts) :
    text ∈ texts ∨ text = empty ∨ ∃ left right, text = node (hash left) (hash right) := by
  fun_induction hashed hash node empty texts with
  | case1 texts ih =>
    rcases List.mem_append.mp member with level | above
    · rcases List.mem_append.mp level with inside | padding
      · exact .inl inside
      · split at padding
        · cases padding
        · exact .inr (.inl (List.mem_singleton.mp padding))
    · have risen (inside : text ∈ rise hash node empty texts) := Or.inr (a := text = empty) (mem_rise inside)
      split at above
      next more =>
        rcases ih more above with inside | other
        · exact .inr (risen inside)
        · exact .inr other
      next => exact .inr (risen above)


private theorem map_agrees {first second : List S}
    (agree : ∀ left ∈ first, ∀ right ∈ second, hash left = hash right → left = right)
    (same : first.map hash = second.map hash) : first = second := by
  induction first generalizing second with
  | nil => exact (List.map_eq_nil_iff.mp same.symm).symm
  | cons left rest ih =>
    obtain ⟨right, others, rfl, head, tail⟩ := List.map_eq_cons_iff.mp same.symm
    rw [agree left (by simp) right (by simp) head.symm,
      ih (fun left inside right also => agree left (by simp [inside]) right (by simp [also])) tail.symm]

section Binding
variable (injective : ∀ {a b c d}, node a b = node c d → a = c ∧ b = d)

/-- Two levels on which equal hashes mean equal texts and no text hashes like the padding used. -/
structure Agree (hash : S → D) (empty : S) (first second : List S) : Prop where
  texts : ∀ left ∈ first, ∀ right ∈ second, hash left = hash right → left = right
  firstPadding : first.length % 2 ≠ 0 → ∀ right ∈ second, hash empty ≠ hash right
  secondPadding : second.length % 2 ≠ 0 → ∀ left ∈ first, hash empty ≠ hash left

include injective

private theorem rise_injective {first second : List S} (agree : Agree hash empty first second)
    (same : rise hash node empty first = rise hash node empty second) : first = second := by
  have padded := pairUp_injective injective (by rw [pad_length]; omega) (by rw [pad_length]; omega) same
  simp only [pad, List.length_map] at padded
  split at padded <;> split at padded
  · exact map_agrees agree.texts padded
  next firstEven secondOdd =>
    obtain ⟨left, inside, collides⟩ := List.mem_map.mp (padded ▸ List.mem_append_right _ (List.mem_singleton_self _))
    exact absurd collides.symm (agree.secondPadding secondOdd left inside)
  next firstOdd secondEven =>
    obtain ⟨right, inside, collides⟩ :=
      List.mem_map.mp (padded ▸ List.mem_append_right (first.map hash) (List.mem_singleton_self (hash empty)))
    exact absurd collides.symm (agree.firstPadding firstOdd right inside)
  · exact map_agrees agree.texts (List.append_cancel_right padded)

private theorem descend {first second : List S} (height : Nat)
    (agree : ∀ level < height, Agree hash empty ((rise hash node empty)^[level] first) ((rise hash node empty)^[level] second))
    (same : (rise hash node empty)^[height] first = (rise hash node empty)^[height] second) : first = second := by
  induction height with
  | zero => exact same
  | succ height ih =>
    rw [Function.iterate_succ_apply', Function.iterate_succ_apply'] at same
    exact ih (fun level bound => agree level (by omega)) (rise_injective injective (agree height (by omega)) same)

variable (proper : ∀ a b, node a b ≠ empty)
include proper

omit injective in
private theorem visible {texts : List S} (shown : ∀ text ∈ texts, text ≠ empty) (level : Nat) :
    ∀ text ∈ (rise hash node empty)^[level] texts, text ≠ empty := by
  cases level with
  | zero => exact shown
  | succ level =>
    intro text member
    rw [Function.iterate_succ_apply'] at member
    obtain ⟨left, right, rfl⟩ := mem_rise member
    exact proper _ _

private theorem taller_binds {first second : List S} {low high : Nat} (bound : low ≤ high)
    (firstClimb : Climb hash node empty first low) (secondClimb : Climb hash node empty second high)
    (firstShown : ∀ text ∈ first, text ≠ empty) (secondShown : ∀ text ∈ second, text ≠ empty)
    (clean : ¬ Collision hash (hashed hash node empty first ++ hashed hash node empty second))
    (same : summit hash node empty first = summit hash node empty second) :
    first = (rise hash node empty)^[high - low] second := by
  have equalHash : ∀ left ∈ hashed hash node empty first ++ hashed hash node empty second,
      ∀ right ∈ hashed hash node empty first ++ hashed hash node empty second, hash left = hash right → left = right := by
    intro left leftUsed right rightUsed equal
    by_contra different
    exact clean ⟨left, leftUsed, right, rightUsed, different, equal⟩
  apply descend injective low
  · intro level below
    rw [← Function.iterate_add_apply]
    have leftUsed := fun text member =>
      List.mem_append_left (hashed hash node empty second) (firstClimb.visited level (by omega) text member)
    have rightUsed := fun text member =>
      List.mem_append_right (hashed hash node empty first) (secondClimb.visited (level + (high - low)) (by omega) text member)
    refine ⟨fun left inside right also => equalHash left (leftUsed left inside) right (rightUsed right also), ?_, ?_⟩
    · intro odd right also collides
      have used := List.mem_append_left (hashed hash node empty second) (firstClimb.padded level below odd)
      exact visible proper secondShown _ right also (equalHash empty used right (rightUsed right also) collides).symm
    · intro odd left inside collides
      have used := List.mem_append_right (hashed hash node empty first)
        (secondClimb.padded (level + (high - low)) (by omega) odd)
      exact visible proper firstShown _ left inside (equalHash empty used left (leftUsed left inside) collides).symm
  · rw [← Function.iterate_add_apply, Nat.add_sub_cancel' bound, ← firstClimb.reached, ← secondClimb.reached, same]

/-- Equal roots without a collision among the hashed texts: the shorter tree is
the top of the taller one. -/
theorem binding {first second : List S} (firstSome : first ≠ []) (secondSome : second ≠ [])
    (firstShown : ∀ text ∈ first, text ≠ empty) (secondShown : ∀ text ∈ second, text ≠ empty)
    (clean : ¬ Collision hash (hashed hash node empty first ++ hashed hash node empty second))
    (same : (summit hash node empty first).map hash = (summit hash node empty second).map hash) :
    ∃ levels, first = (rise hash node empty)^[levels] second ∨ second = (rise hash node empty)^[levels] first := by
  obtain ⟨low, firstClimb⟩ := climb hash node empty first firstSome
  obtain ⟨high, secondClimb⟩ := climb hash node empty second secondSome
  have top : summit hash node empty first = summit hash node empty second := by
    apply map_agrees _ same
    intro left inside right also equal
    by_contra different
    refine clean ⟨left, List.mem_append_left _ ?_, right, List.mem_append_right _ ?_, different, equal⟩
    · exact firstClimb.visited low (Nat.le_refl _) left (firstClimb.reached ▸ inside)
    · exact secondClimb.visited high (Nat.le_refl _) right (secondClimb.reached ▸ also)
  rcases Nat.le_total low high with bound | bound
  · exact ⟨high - low, Or.inl (taller_binds injective proper bound firstClimb secondClimb firstShown secondShown clean top)⟩
  · refine ⟨low - high, Or.inr (taller_binds injective proper bound secondClimb firstClimb secondShown firstShown ?_ top.symm)⟩
    intro collision
    obtain ⟨left, leftUsed, right, rightUsed, different⟩ := collision
    exact clean ⟨left, by simpa [or_comm] using leftUsed, right, by simpa [or_comm] using rightUsed, different⟩

end Binding
end ProcessChain.Lib.HashTree
