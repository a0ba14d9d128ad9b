import Mathlib.Algebra.BigOperators.Group.List.Basic
import Mathlib.Algebra.Order.BigOperators.Group.List
import Mathlib.Algebra.Order.Group.Nat

/-! Texts that are read line by line, as a whole or through a buffer of limited
size. A buffer shows the lines as they are exactly when every one of them fits. -/

namespace ProcessChain.Lib

variable {α : Type} [DecidableEq α] (newline : α)

structure Line (α : Type) where
  text : List α
  /-- Whether the line ends in a newline or with the text. -/
  terminated : Bool
deriving DecidableEq

/-- The lines after the letters of the current one. -/
def linesFrom : List α → List α → List (Line α)
  | current, [] => if current = [] then [] else [⟨current, false⟩]
  | current, letter :: rest =>
    if letter = newline then ⟨current, true⟩ :: linesFrom [] rest else linesFrom (current ++ [letter]) rest

def linesOf (text : List α) : List (Line α) := linesFrom newline [] text

/-- One filling of a buffer: its letters, and whether the end of the text was met. -/
structure Chunk (α : Type) where
  letters : List α
  atEnd : Bool
deriving DecidableEq

/-- The fillings of a buffer for `size` letters. Each ends after a newline, when
the buffer is full or at the end of the text, which a full buffer does not meet. -/
def chunksFrom (size : Nat) : List α → List α → List (Chunk α)
  | current, [] => if current = [] then [] else [⟨current, true⟩]
  | current, letter :: rest =>
    if letter = newline ∨ current.length + 1 = size then ⟨current ++ [letter], false⟩ :: chunksFrom size [] rest
    else chunksFrom size (current ++ [letter]) rest

def chunksOf (size : Nat) (text : List α) : List (Chunk α) := chunksFrom newline size [] text

def Line.chunk (line : Line α) : Chunk α :=
  if line.terminated then ⟨line.text ++ [newline], false⟩ else ⟨line.text, true⟩

/-- The current letters are the beginning of the next line. -/
private theorem linesFrom_current (current : List α) (some : current ≠ []) (rest : List α) :
    ∃ line ∈ linesFrom newline current rest, current <+: line.text := by
  induction rest generalizing current with
  | nil => exact ⟨⟨current, false⟩, by simp [linesFrom, some], List.prefix_rfl⟩
  | cons letter rest ih =>
    simp only [linesFrom]
    split
    · exact ⟨⟨current, true⟩, by simp, List.prefix_rfl⟩
    · obtain ⟨line, member, start⟩ := ih (current ++ [letter]) (by simp)
      exact ⟨line, member, (List.prefix_append _ _).trans start⟩

variable {newline} {size : Nat}

private theorem chunksFrom_short {text : List α} (current : List α) (room : current.length < size)
    (short : ∀ line ∈ linesFrom newline current text, line.text.length < size) :
    chunksFrom newline size current text = (linesFrom newline current text).map (Line.chunk newline) := by
  induction text generalizing current with
  | nil =>
    simp only [chunksFrom, linesFrom]
    split
    · rfl
    · simp [Line.chunk]
  | cons letter rest ih =>
    simp only [linesFrom] at short ⊢
    by_cases ends : letter = newline
    · simp only [if_pos ends] at short ⊢
      have later := ih [] (by simp; omega) fun line member => short line (by simp [member])
      simp only [chunksFrom, ends, true_or, if_true, later, List.map_cons, Line.chunk]
    · simp only [if_neg ends] at short ⊢
      -- the buffer is not full yet, because the line fits with all its letters
      have longer : current.length + 1 < size := by
        obtain ⟨line, member, start⟩ := linesFrom_current newline (current ++ [letter]) (by simp) rest
        have bound := short line member
        have least := start.length_le
        simp only [List.length_append, List.length_singleton] at least
        omega
      have full : ¬ (letter = newline ∨ current.length + 1 = size) := by
        simp only [ends, false_or]
        omega
      rw [chunksFrom, if_neg full]
      exact ih (current ++ [letter]) (by simpa using longer) short

/-- A buffer that every line fits into is filled with one line after the other. -/
theorem chunks_short {text : List α} (positive : 0 < size)
    (short : ∀ line ∈ linesOf newline text, line.text.length < size) :
    chunksOf newline size text = (linesOf newline text).map (Line.chunk newline) :=
  chunksFrom_short [] positive short

private theorem chunksFrom_long {text : List α} (current : List α) (room : current.length < size) (clean : newline ∉ current)
    {line : Line α} (member : line ∈ linesFrom newline current text) (long : size ≤ line.text.length) :
    ∃ chunk ∈ chunksFrom newline size current text, chunk.atEnd = false ∧ newline ∉ chunk.letters := by
  induction text generalizing current with
  | nil =>
    simp only [linesFrom] at member
    split at member
    · cases member
    · rw [List.mem_singleton.mp member] at long
      simp only at long
      omega
  | cons letter rest ih =>
    simp only [linesFrom] at member
    by_cases ends : letter = newline
    · rw [if_pos ends] at member
      rcases List.mem_cons.mp member with rfl | later
      · simp only at long
        omega
      · obtain ⟨chunk, inside, facts⟩ := ih [] (by simp; omega) (by simp) later
        refine ⟨chunk, ?_, facts⟩
        simp only [chunksFrom, ends, true_or, if_true]
        exact List.mem_cons_of_mem _ inside
    · rw [if_neg ends] at member
      have still : newline ∉ current ++ [letter] := by simpa using ⟨clean, Ne.symm ends⟩
      by_cases full : current.length + 1 = size
      · refine ⟨⟨current ++ [letter], false⟩, ?_, rfl, still⟩
        simp [chunksFrom, full]
      · obtain ⟨chunk, inside, facts⟩ := ih (current ++ [letter]) (by simp; omega) still member
        refine ⟨chunk, ?_, facts⟩
        rw [chunksFrom, if_neg (by simp [ends, full])]
        exact inside

/-- A line that does not fit shows up as a full buffer without a newline. -/
theorem chunks_long {text : List α} (positive : 0 < size) {line : Line α} (member : line ∈ linesOf newline text)
    (long : size ≤ line.text.length) :
    ∃ chunk ∈ chunksOf newline size text, chunk.atEnd = false ∧ newline ∉ chunk.letters :=
  chunksFrom_long [] positive (by simp) member long

private theorem chunksFrom_letters (newline : α) (size : Nat) (current text : List α) :
    (chunksFrom newline size current text).flatMap Chunk.letters = current ++ text ∧
      ∀ chunk ∈ chunksFrom newline size current text, chunk.letters ≠ [] := by
  induction text generalizing current with
  | nil =>
    simp only [chunksFrom]
    split
    next empty => simp [empty]
    next some => simpa using some
  | cons letter rest ih =>
    simp only [chunksFrom]
    split
    · obtain ⟨joined, visible⟩ := ih []
      refine ⟨by simp [joined], ?_⟩
      intro chunk member
      rcases List.mem_cons.mp member with rfl | later
      · simp
      · exact visible chunk later
    · simpa using ih (current ++ [letter])

/-- There are not more fillings than letters, and none of them is longer than the text. -/
theorem chunks_bounded (newline : α) (size : Nat) (text : List α) :
    (chunksOf newline size text).length ≤ text.length ∧
      ∀ chunk ∈ chunksOf newline size text, chunk.letters.length ≤ text.length := by
  obtain ⟨joined, visible⟩ := chunksFrom_letters newline size [] text
  rw [List.nil_append] at joined
  have total : ((chunksOf newline size text).map fun chunk => chunk.letters.length).sum = text.length := by
    conv_rhs => rw [← joined]
    exact List.length_flatMap.symm
  rw [← total]
  constructor
  · rw [← List.length_map fun chunk : Chunk α => chunk.letters.length]
    apply List.length_le_sum_of_one_le
    intro length member
    obtain ⟨chunk, inside, rfl⟩ := List.mem_map.mp member
    exact List.length_pos_iff.mpr (visible chunk inside)
  · intro chunk member
    exact List.single_le_sum (fun _ _ => Nat.zero_le _) _ (List.mem_map_of_mem member)

private theorem linesFrom_terminated {current line : List α} (clean : newline ∉ line) (rest : List α) :
    linesFrom newline current (line ++ newline :: rest) = ⟨current ++ line, true⟩ :: linesFrom newline [] rest := by
  induction line generalizing current with
  | nil => simp [linesFrom]
  | cons letter later ih =>
    simp only [List.mem_cons, not_or] at clean
    rw [List.cons_append, linesFrom, if_neg (Ne.symm clean.1), ih clean.2]
    simp

theorem linesOf_terminated {line : List α} (clean : newline ∉ line) (rest : List α) :
    linesOf newline (line ++ newline :: rest) = ⟨line, true⟩ :: linesOf newline rest := by
  rw [linesOf, linesFrom_terminated clean, List.nil_append]
  rfl

/-- Lines written with a newline each are read as they were written. -/
theorem linesOf_written {lines : List (List α)} (clean : ∀ line ∈ lines, newline ∉ line) :
    linesOf newline (lines.flatMap (· ++ [newline])) = lines.map fun line => ⟨line, true⟩ := by
  induction lines with
  | nil => rfl
  | cons line rest ih =>
    rw [List.flatMap_cons, List.append_assoc, List.singleton_append, linesOf_terminated (clean line (by simp)),
      ih fun line member => clean line (by simp [member]), List.map_cons]

private theorem linesFrom_clean {current text : List α} (clean : newline ∉ current) :
    ∀ line ∈ linesFrom newline current text, newline ∉ line.text := by
  induction text generalizing current with
  | nil =>
    intro line member
    simp only [linesFrom] at member
    split at member
    · cases member
    · rw [List.mem_singleton.mp member]
      exact clean
  | cons letter rest ih =>
    intro line member
    simp only [linesFrom] at member
    split at member
    · rcases List.mem_cons.mp member with rfl | later
      · exact clean
      · exact ih (by simp) line later
    next other => exact ih (by simpa using ⟨clean, Ne.symm other⟩) line member

theorem linesOf_clean {text : List α} : ∀ line ∈ linesOf newline text, newline ∉ line.text :=
  linesFrom_clean (by simp)

private theorem linesFrom_subset {current text : List α} :
    ∀ line ∈ linesFrom newline current text, line.text ⊆ current ++ text := by
  induction text generalizing current with
  | nil =>
    intro line member
    simp only [linesFrom] at member
    split at member
    · cases member
    · rw [List.mem_singleton.mp member, List.append_nil]
      exact List.Subset.refl current
  | cons letter rest ih =>
    intro line member
    simp only [linesFrom] at member
    split at member
    · rcases List.mem_cons.mp member with rfl | later
      · exact List.subset_append_left _ _
      · have inside : line.text ⊆ rest := ih line later
        exact List.subset_append_of_subset_right current (List.subset_cons_of_subset letter inside)
    · have inside := ih line member
      rwa [List.append_assoc, List.singleton_append] at inside

theorem linesOf_subset {text : List α} : ∀ line ∈ linesOf newline text, line.text ⊆ text :=
  linesFrom_subset

end ProcessChain.Lib
