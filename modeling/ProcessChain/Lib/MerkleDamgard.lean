import ProcessChain.Lib.HashTree

/-! Hash functions that take a message block by block: a compression function leads
from one state over a block to the next state. A reader that gets the letters one at
a time keeps the block it has begun and comes to the same states. Two padded messages
that end in the same state are the same, unless two different inputs of the
compression function have one output. -/

namespace ProcessChain.Lib.MerkleDamgard
open HashTree

variable {σ α : Type}

/-- The first blocks of a text. -/
def blocksOf (size : Nat) : Nat → List α → List (List α)
  | 0, _ => []
  | count + 1, text => text.take size :: blocksOf size count (text.drop size)

@[simp] theorem blocksOf_length (size count : Nat) (text : List α) : (blocksOf size count text).length = count := by
  induction count generalizing text with
  | zero => rfl
  | succ count ih => rw [blocksOf, List.length_cons, ih]

theorem blocksOf_add (size first second : Nat) (text : List α) :
    blocksOf size (first + second) text = blocksOf size first text ++ blocksOf size second (text.drop (first * size)) := by
  induction first generalizing text with
  | zero => simp [blocksOf]
  | succ first ih =>
    rw [Nat.succ_add, blocksOf, ih, List.drop_drop, blocksOf, List.cons_append]
    congr 4
    rw [Nat.succ_mul, Nat.add_comm]

theorem blocksOf_succ (size count : Nat) (text : List α) :
    blocksOf size (count + 1) text = blocksOf size count text ++ [(text.drop (count * size)).take size] :=
  blocksOf_add size count 1 text

/-- What stands behind the blocks does not matter. -/
theorem blocksOf_append {size count : Nat} {text : List α} (enough : count * size ≤ text.length) (rest : List α) :
    blocksOf size count (text ++ rest) = blocksOf size count text := by
  induction count generalizing text with
  | zero => rfl
  | succ count ih =>
    rw [Nat.succ_mul] at enough
    have whole : size ≤ text.length := by omega
    rw [blocksOf, blocksOf, List.take_append_of_le_length whole, List.drop_append_of_le_length whole,
      ih (by rw [List.length_drop]; omega)]

/-- A text is its blocks one after the other. -/
theorem blocksOf_flatten (size count : Nat) (text : List α) : (blocksOf size count text).flatten = text.take (count * size) := by
  induction count generalizing text with
  | zero => simp [blocksOf]
  | succ count ih =>
    rw [blocksOf, List.flatten_cons, ih, Nat.succ_mul, Nat.add_comm, List.take_add]

section Reading
variable (size : Nat) (compress : σ → List α → σ)

/-- A reader between two letters. -/
structure Reader (σ α : Type) where
  state : σ
  pending : List α

def feed (reader : Reader σ α) (letter : α) : Reader σ α :=
  if reader.pending.length + 1 = size then ⟨compress reader.state (reader.pending ++ [letter]), []⟩
  else ⟨reader.state, reader.pending ++ [letter]⟩

def absorb (reader : Reader σ α) (text : List α) : Reader σ α := text.foldl (feed size compress) reader

variable {size}

theorem absorb_append (reader : Reader σ α) (first second : List α) :
    absorb size compress reader (first ++ second) = absorb size compress (absorb size compress reader first) second :=
  List.foldl_append

/-- Less than a block is kept. -/
theorem absorb_short (reader : Reader σ α) {text : List α} (short : reader.pending.length + text.length < size) :
    absorb size compress reader text = ⟨reader.state, reader.pending ++ text⟩ := by
  induction text generalizing reader with
  | nil => simp [absorb]
  | cons letter rest ih =>
    rw [List.length_cons] at short
    have kept : feed size compress reader letter = ⟨reader.state, reader.pending ++ [letter]⟩ := if_neg (by omega)
    rw [absorb, List.foldl_cons, kept, ← absorb, ih _ (by simp; omega)]
    simp

/-- A whole block is compressed at its last letter. -/
theorem absorb_block (state : σ) {block : List α} (whole : block.length = size) (positive : 0 < size) :
    absorb size compress ⟨state, []⟩ block = ⟨compress state block, []⟩ := by
  have some : block ≠ [] := List.ne_nil_of_length_pos (by omega)
  obtain ⟨front, last, rfl⟩ := (List.eq_nil_or_concat' block).resolve_left some
  rw [List.length_append, List.length_singleton] at whole
  have started : absorb size compress ⟨state, []⟩ front = ⟨state, front⟩ :=
    absorb_short compress ⟨state, []⟩ (by rw [List.length_nil]; omega)
  rw [absorb_append, started]
  exact if_pos whole

/-- A reader is in the state behind the whole blocks and keeps what is left. -/
theorem absorb_blocks (state : σ) (text : List α) (positive : 0 < size) :
    absorb size compress ⟨state, []⟩ text =
      ⟨(blocksOf size (text.length / size) text).foldl compress state, text.drop (text.length / size * size)⟩ := by
  generalize counted : text.length / size = count
  induction count generalizing text state with
  | zero =>
    have short : text.length < size := (Nat.div_eq_zero_iff_lt positive).mp counted
    rw [absorb_short compress ⟨state, []⟩ (by simpa using short)]
    simp [blocksOf]
  | succ count ih =>
    have whole : size ≤ text.length := by
      by_contra short
      rw [Nat.div_eq_of_lt (by omega)] at counted
      cases counted
    have split : text = text.take size ++ text.drop size := (List.take_append_drop size text).symm
    have later : (text.drop size).length / size = count := by
      rw [Nat.div_eq_sub_div positive whole] at counted
      rw [List.length_drop, Nat.succ.inj counted]
    conv_lhs => rw [split]
    rw [absorb_append, absorb_block compress state (by rw [List.length_take]; omega) positive, ih _ _ later, blocksOf, List.foldl_cons, List.drop_drop, Nat.succ_mul, Nat.add_comm]

end Reading

section Binding
variable {compress : σ → List α → σ}

/-- The inputs of the compression function on the way over some blocks. -/
def inputs (compress : σ → List α → σ) : σ → List (List α) → List (σ × List α)
  | _, [] => []
  | state, block :: rest => (state, block) :: inputs compress (compress state block) rest

theorem inputs_append (compress : σ → List α → σ) (state : σ) (first second : List (List α)) :
    inputs compress state (first ++ second) =
      inputs compress state first ++ inputs compress (first.foldl compress state) second := by
  induction first generalizing state with
  | nil => rfl
  | cons block rest ih => rw [List.cons_append, inputs, ih, inputs, List.cons_append, List.foldl_cons]

/-- Two of these inputs are different and have one output. -/
def Meets (compress : σ → List α → σ) (used : List (σ × List α)) : Prop :=
  Collision (fun input => compress input.1 input.2) used

theorem Meets.mono {few many : List (σ × List α)} (subset : few ⊆ many) (meets : Meets compress few) :
    Meets compress many := by
  obtain ⟨first, inFirst, second, inSecond, different⟩ := meets
  exact ⟨first, subset inFirst, second, subset inSecond, different⟩

/-- Over equally many blocks a final state determines the first one and the blocks. -/
theorem blocks_bind {start start' : σ} {blocks blocks' : List (List α)} (lengths : blocks.length = blocks'.length)
    (same : blocks.foldl compress start = blocks'.foldl compress start')
    (clean : ¬ Meets compress (inputs compress start blocks ++ inputs compress start' blocks')) :
    start = start' ∧ blocks = blocks' := by
  induction blocks generalizing start start' blocks' with
  | nil =>
    obtain rfl := List.eq_nil_of_length_eq_zero lengths.symm
    exact ⟨same, rfl⟩
  | cons block rest ih =>
    obtain ⟨block', rest', rfl⟩ := List.exists_cons_of_length_eq_add_one lengths.symm
    have later : ¬ Meets compress (inputs compress (compress start block) rest ++
        inputs compress (compress start' block') rest') := by
      refine fun meets => clean (meets.mono ?_)
      exact List.append_subset.mpr ⟨fun input member => by simp [inputs, member], fun input member => by simp [inputs, member]⟩
    obtain ⟨states, blocks⟩ := ih (Nat.succ.inj lengths) same later
    have input : (start, block) = (start', block') := by
      by_contra different
      exact clean ⟨(start, block), by simp [inputs], (start', block'), by simp [inputs], different, states⟩
    rw [Prod.mk.injEq] at input
    exact ⟨input.1, by rw [input.2, blocks]⟩

variable {start start' : σ} {front front' : List (List α)} {last last' : List α}

/-- A final state determines the last block. -/
theorem last_binds (same : (front ++ [last]).foldl compress start = (front' ++ [last']).foldl compress start')
    (clean : ¬ Meets compress (inputs compress start (front ++ [last]) ++ inputs compress start' (front' ++ [last']))) :
    last = last' := by
  simp only [List.foldl_append, List.foldl_cons, List.foldl_nil] at same
  by_contra different
  refine clean ⟨(front.foldl compress start, last), ?_, (front'.foldl compress start', last'), ?_, ?_, same⟩
  · simp [inputs_append, inputs]
  · simp [inputs_append, inputs]
  · exact fun inputs => different (Prod.mk.inj inputs).2

/-- Padded messages that end in the same state are the same blocks, if their last
blocks tell how many blocks there are. -/
theorem padding_binds (tells : last = last' → front.length = front'.length)
    (same : (front ++ [last]).foldl compress start = (front' ++ [last']).foldl compress start)
    (clean : ¬ Meets compress (inputs compress start (front ++ [last]) ++ inputs compress start (front' ++ [last']))) :
    front ++ [last] = front' ++ [last'] := by
  have lengths := tells (last_binds same clean)
  exact (blocks_bind (by rw [List.length_append, List.length_append, lengths]; rfl) same clean).2

end Binding
end ProcessChain.Lib.MerkleDamgard
