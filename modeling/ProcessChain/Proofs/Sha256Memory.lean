import ProcessChain.Sha256Memory
import ProcessChain.Proofs.Sha256
import Mathlib.Tactic.IntervalCases

/-! The loops of the vendored SHA-256 stay inside of their arrays and compute what the
functions on lists compute. The loop over a message counts in 32 bits, so it ends
exactly for messages of less than 4 GiB. -/

namespace ProcessChain.Proofs.Sha256Memory
open Lib ProcessChain.Sha256 Sha256

theorem store_inside {α : Type} {cells : List α} {index : Nat} (inside : index < cells.length) (value : α) :
    store cells index value = some (cells.set index value) := if_pos inside

/-- The cells up to the one that was written. -/
theorem take_stored {α : Type} {cells : List α} {index : Nat} (inside : index < cells.length) (value : α) :
    (cells.set index value).take (index + 1) = cells.take index ++ [value] := by
  rw [List.take_add_one, List.take_set_of_le (Nat.le_refl _), List.getElem?_set_self inside]
  rfl

section Transform

/-- Four bytes are the next word. -/
private theorem bigEndianWords_next {data : Bytes} {j : Nat} (inside : j + 3 < data.length) :
    ∃ a b c d, data[j]? = some a ∧ data[j + 1]? = some b ∧ data[j + 2]? = some c ∧ data[j + 3]? = some d ∧
      bigEndianWords (data.drop j) =
        ((a.toUInt32 <<< 24) ||| (b.toUInt32 <<< 16) ||| (c.toUInt32 <<< 8) ||| d.toUInt32) :: bigEndianWords (data.drop (j + 4)) := by
  refine ⟨_, _, _, _, List.getElem?_eq_getElem (by omega), List.getElem?_eq_getElem (by omega),
    List.getElem?_eq_getElem (by omega), List.getElem?_eq_getElem inside, ?_⟩
  rw [List.drop_eq_getElem_cons (by omega), List.drop_eq_getElem_cons (by omega), List.drop_eq_getElem_cons (by omega),
    List.drop_eq_getElem_cons inside, bigEndianWords]

/-- The first words are those of the block. -/
theorem loadWords_loads {data : Bytes} (whole : data.length = 64) {m : List UInt32} (room : 16 ≤ m.length) {i : Nat} (low : i ≤ 16) :
    ∃ after, loadWords data i (4 * i) m = some after ∧ after.length = m.length ∧
      after.take 16 = m.take i ++ bigEndianWords (data.drop (4 * i)) := by
  induction left : 16 - i generalizing i m with
  | zero =>
    obtain rfl : i = 16 := by omega
    refine ⟨m, ?_, rfl, ?_⟩
    · rw [loadWords]
      rfl
    · rw [List.drop_of_length_le (by omega)]
      exact (List.append_nil _).symm
  | succ left ih =>
    obtain ⟨a, b, c, d, first, second, third, fourth, next⟩ := bigEndianWords_next (show 4 * i + 3 < data.length by omega)
    generalize new : (a.toUInt32 <<< 24) ||| (b.toUInt32 <<< 16) ||| (c.toUInt32 <<< 8) ||| d.toUInt32 = word at next
    obtain ⟨after, loaded, size, start⟩ := ih (m := m.set i word) (i := i + 1) (by rwa [List.length_set]) (by omega) (by omega)
    rw [take_stored (by omega), List.append_assoc, List.singleton_append, Nat.mul_succ, ← next] at start
    rw [List.length_set] at size
    refine ⟨after, ?_, size, start⟩
    rw [loadWords, if_pos (by omega)]
    simp only [first, second, third, fourth, new, Option.bind_eq_bind, Option.bind_some, store_inside (show i < m.length by omega)]
    exact loaded

/-- The words of a schedule before some position, counted backwards. -/
private theorem word_before {m words : List UInt32} {i : Nat} (known : m.take i = words.reverse) (counted : words.length = i)
    {back : Nat} (inside : back < i) : m[i - 1 - back]? = some (words.getD back 0) := by
  have here : m[i - 1 - back]? = (m.take i)[i - 1 - back]? := (List.getElem?_take_of_lt (by omega)).symm
  rw [here, known, List.getElem?_reverse (by omega), counted, show i - 1 - (i - 1 - back) = back by omega,
    List.getD_eq_getElem?_getD, List.getElem?_eq_getElem (by omega)]
  rfl

/-- The rest of the words are those of the schedule. -/
theorem extendWords_extends {m words : List UInt32} (room : m.length = 64) {i : Nat} (low : 16 ≤ i) (high : i ≤ 64)
    (counted : words.length = i) (known : m.take i = words.reverse) :
    extendWords i m = some (schedule (64 - i) words).reverse := by
  induction left : 64 - i generalizing i m words with
  | zero =>
    obtain rfl : i = 64 := by omega
    rw [List.take_of_length_le (Nat.le_of_eq room)] at known
    rw [extendWords, known]
    rfl
  | succ left ih =>
    have a := word_before known counted (show 1 < i by omega)
    have b := word_before known counted (show 6 < i by omega)
    have c := word_before known counted (show 14 < i by omega)
    have d := word_before known counted (show 15 < i by omega)
    rw [extendWords, if_pos (by omega)]
    simp only [Nat.sub_sub] at a b c d
    simp only [a, b, c, d, Option.bind_eq_bind, Option.bind_some, store_inside (show i < m.length by omega), schedule]
    refine ih (by rwa [List.length_set]) (by omega) (by omega) (by rw [List.length_cons, counted]) ?_ (by omega)
    rw [take_stored (by omega), known, List.reverse_cons]

theorem schedule_length (rounds : Nat) (words : List UInt32) : (schedule rounds words).length = rounds + words.length := by
  induction rounds generalizing words with
  | zero => exact (Nat.zero_add _).symm
  | succ rounds ih => rw [schedule, ih, List.length_cons, Nat.succ_add_eq_add_succ]

theorem k_length : k.length = 64 := rfl

/-- The rounds go over the constants and the words together. -/
theorem roundLoop_rounds {m : List UInt32} (room : m.length = 64) {i : Nat} (high : i ≤ 64) (words : Words) :
    roundLoop m i words =
      some (((k.zip m).drop i).foldl (fun words (constant, message) => round words constant message) words) := by
  have sized : (k.zip m).length = 64 := by rw [List.length_zip, room, k_length]; rfl
  induction left : 64 - i generalizing i words with
  | zero =>
    obtain rfl : i = 64 := by omega
    rw [roundLoop, List.drop_of_length_le (Nat.le_of_eq sized)]
    rfl
  | succ left ih =>
    have inside : i < k.length := by rw [k_length]; omega
    rw [roundLoop, if_pos (by omega), List.getElem?_eq_getElem inside, List.getElem?_eq_getElem (by omega),
      List.drop_eq_getElem_cons (by omega), List.getElem_zip, List.foldl_cons]
    exact ih (by omega) _ (by omega)

theorem transform_transforms {m : List UInt32} (room : m.length = 64) (state : Words) {data : Bytes} (whole : data.length = 64) :
    transformInMemory m state data = some (sha256Transform state data) := by
  obtain ⟨loaded, load, size, start⟩ := loadWords_loads whole (m := m) (by omega) (Nat.zero_le 16)
  rw [List.take_zero, List.nil_append, List.drop_zero] at start
  have words : (bigEndianWords data).reverse.length = 16 := by
    rw [List.length_reverse, ← start, List.length_take, size, room]
    rfl
  have extended := extendWords_extends (size.trans room) (Nat.le_refl 16) (by decide) words (by rw [start, List.reverse_reverse])
  have scheduled : (schedule (64 - 16) (bigEndianWords data).reverse).reverse.length = 64 := by
    rw [List.length_reverse, schedule_length, words]
  have rounds := roundLoop_rounds scheduled (Nat.zero_le 64) state
  rw [Nat.mul_zero] at load
  rw [transformInMemory, load]
  simp only [Option.bind_eq_bind, Option.bind_some, extended, rounds, List.drop_zero]
  rfl

end Transform

section Update

/-- A context in memory: the buffer starts with the bytes that wait. -/
structure Holds (memory : ContextMemory) (context : Context) : Prop where
  room : memory.data.length = 64
  waiting : memory.data.take context.data.length = context.data
  level : memory.datalen.toNat = context.data.length
  small : context.data.length < 64
  bits : memory.bitlen = context.bitlen
  words : memory.state = context.state

theorem init_holds {buffer : Bytes} (room : buffer.length = 64) : Holds (initInMemory buffer) sha256Init :=
  ⟨room, rfl, rfl, by decide, rfl, rfl⟩

private theorem counter_next {counter : UInt32} (small : counter.toNat + 1 < 2 ^ 32) : (counter + 1).toNat = counter.toNat + 1 := by
  rw [UInt32.toNat_add]
  exact Nat.mod_eq_of_lt small

variable {m : List UInt32} (wordRoom : m.length = 64)
include wordRoom

/-- One turn writes inside of the buffer and takes over the byte. -/
theorem updateTurn_holds {memory : ContextMemory} {context : Context} (holds : Holds memory context) (byte : UInt8) :
    ∃ after, updateTurn m memory byte = some after ∧ Holds after (sha256Update context [byte]) := by
  obtain ⟨room, waiting, level, small, bits, words⟩ := holds
  have inside : memory.datalen.toNat < memory.data.length := by omega
  have stored := take_stored inside byte
  have next : (memory.datalen + 1).toNat = context.data.length + 1 := by
    rw [counter_next (by omega), level]
  rw [level, waiting] at stored
  rw [updateTurn, store_inside inside, level]
  simp only [Option.bind_eq_bind, Option.bind_some]
  by_cases full : context.data.length + 1 = 64
  · have block : memory.data.set context.data.length byte = context.data ++ [byte] := by
      rw [← stored, full, List.take_of_length_le (by rw [List.length_set, room])]
    have last : memory.datalen + 1 = 64 := UInt32.toNat_inj.mp (next.trans full)
    rw [if_pos last, update_full full, block,
      transform_transforms wordRoom _ (List.length_append.trans full)]
    exact ⟨_, rfl, List.length_append.trans full, rfl, rfl, Nat.zero_lt_succ _, by rw [bits], by rw [words]⟩
  · rw [if_neg fun equal => full (next.symm.trans (congrArg UInt32.toNat equal)), update_kept full]
    refine ⟨_, rfl, by rwa [List.length_set], ?_, ?_, ?_, bits, words⟩
    all_goals rw [List.length_append, List.length_singleton]
    · exact stored
    · exact next
    · omega

/-- Over less than 4 GiB the loop ends, with the context for the whole message. -/
theorem updateLoop_ends {input : Bytes} (short : input.length < 2 ^ 32) {fuel : Nat} {i : UInt32}
    (enough : input.length ≤ i.toNat + fuel) {memory : ContextMemory} {context : Context} (holds : Holds memory context) :
    ∃ after, updateLoop m input fuel i memory = .done after ∧ Holds after (sha256Update context (input.drop i.toNat)) := by
  induction fuel generalizing i memory context with
  | zero =>
    rw [updateLoop, if_neg (by omega), List.drop_of_length_le (by omega)]
    exact ⟨memory, rfl, holds⟩
  | succ fuel ih =>
    by_cases inside : i.toNat < input.length
    · obtain ⟨after, turned, held⟩ := updateTurn_holds wordRoom holds input[i.toNat]
      have next : (i + 1).toNat = i.toNat + 1 := counter_next (by omega)
      obtain ⟨final, done, result⟩ := ih (i := i + 1) (by omega) held
      rw [next, ← update_append, List.singleton_append, ← List.drop_eq_getElem_cons inside] at result
      rw [updateLoop, if_pos inside, List.getElem?_eq_getElem inside, Option.bind_some, turned]
      exact ⟨final, done, result⟩
    · rw [updateLoop, if_neg inside, List.drop_of_length_le (by omega)]
      exact ⟨memory, rfl, holds⟩

/-- From 4 GiB on the counter never gets to the length, and before a turn for each byte it has not got there. -/
theorem updateLoop_runs {input : Bytes} {fuel : Nat} {i : UInt32} (left : 2 ^ 32 ≤ input.length ∨ i.toNat + fuel < input.length)
    {memory : ContextMemory} {context : Context} (holds : Holds memory context) : updateLoop m input fuel i memory = .running := by
  have small := i.toNat_lt
  induction fuel generalizing i memory context with
  | zero => rw [updateLoop, if_pos (by omega)]
  | succ fuel ih =>
    have inside : i.toNat < input.length := by omega
    obtain ⟨after, turned, held⟩ := updateTurn_holds wordRoom holds input[i.toNat]
    rw [updateLoop, if_pos inside, List.getElem?_eq_getElem inside, Option.bind_some, turned]
    refine ih ?_ held (i + 1).toNat_lt
    by_cases long : 2 ^ 32 ≤ input.length
    · exact .inl long
    · rw [counter_next (by omega)]
      omega

end Update

section Final

/-- `count` zeros behind the bytes that stand already. -/
theorem zeroLoop_zeros {limit i : Nat} {data start : Bytes} (room : limit ≤ data.length) (low : i ≤ limit)
    (counted : start.length = i) (known : data.take i = start) :
    ∃ after, zeroLoop limit i data = some after ∧ after.length = data.length ∧
      after.take limit = start ++ List.replicate (limit - i) 0 ∧ after.drop limit = data.drop limit := by
  induction left : limit - i generalizing i data start with
  | zero =>
    obtain rfl : i = limit := by omega
    refine ⟨data, ?_, rfl, ?_, rfl⟩
    · rw [zeroLoop, if_neg (Nat.lt_irrefl _)]
    · rw [known, List.replicate_zero, List.append_nil]
  | succ left ih =>
    have inside : i < data.length := by omega
    obtain ⟨after, zeroed, size, front, behind⟩ := ih (show limit ≤ (data.set i 0).length by rwa [List.length_set]) (by omega)
      (show (start ++ [0]).length = i + 1 by rw [List.length_append, counted]; rfl) (by rw [take_stored inside, known]) (by omega)
    refine ⟨after, ?_, by rw [size, List.length_set], ?_, ?_⟩
    · rw [zeroLoop, if_pos (by omega), store_inside inside]
      exact zeroed
    · rw [front, List.append_assoc, List.singleton_append, ← List.replicate_succ]
    · rw [behind, List.drop_set_of_lt (by omega)]

/-- The eight bytes of the length stand at the end. -/
theorem storeLength_stores {data : Bytes} (room : data.length = 64) (bits : UInt64) :
    storeLength data bits = some (data.take 56 ++ lengthBytes bits) := by
  have front : (data.take 56).length = 56 := by rw [List.length_take, room]; rfl
  have behind : (data.drop 56).length = 8 := by rw [List.length_drop, room]
  have eight : ∃ a b c d e f g h, data.drop 56 = [a, b, c, d, e, f, g, h] :=
    match data.drop 56, behind with
    | [a, b, c, d, e, f, g, h], _ => ⟨a, b, c, d, e, f, g, h, rfl⟩
  obtain ⟨a, b, c, d, e, f, g, h, tail⟩ := eight
  have whole : data = data.take 56 ++ [a, b, c, d, e, f, g, h] := by rw [← tail, List.take_append_drop]
  generalize data.take 56 = start at front whole ⊢
  simp (disch := simp only [List.length_set, room]; omega) only [storeLength, store_inside, Option.bind_eq_bind, Option.bind_some]
  simp [whole, front, lengthBytes]

/-- The bytes of a word, from the highest one on. -/
private theorem byte_of_word (word : UInt32) {i : Nat} (inside : i < 4) :
    ((word >>> (24 - i * 8).toUInt32) &&& 0xff).toUInt8 = (bigEndianBytes word).getD i 0 := by
  have low (word : UInt32) : (word &&& 0xff).toUInt8 = word.toUInt8 := by
    rw [UInt32.toUInt8_and]
    exact UInt8.and_neg_one
  rw [low]
  match i, inside with
  | 0, _ | 1, _ | 2, _ => rfl
  | 3, _ => exact congrArg UInt32.toUInt8 UInt32.shiftRight_zero

/-- The byte of a digest at some position: one of a word of the state. -/
private def digestByte (state : Words) (position : Nat) : UInt8 :=
  (bigEndianBytes ([state.a, state.b, state.c, state.d, state.e, state.f, state.g, state.h].getD (position / 4) 0)).getD (position % 4) 0

/-- A turn writes its byte of each of the words and nothing else. -/
private theorem outputTurn_writes (state : Words) {hash : Bytes} (room : hash.length = 32) {i : Nat} (inside : i < 4) :
    ∃ after, outputTurn state hash i = some after ∧ after.length = 32 ∧ ∀ position < 32,
      after[position]? = if position % 4 = i then some (digestByte state position) else hash[position]? := by
  simp (disch := simp only [List.length_set, room]; omega) only [outputTurn, store_inside, byte_of_word _ inside,
    Option.bind_eq_bind, Option.bind_some]
  refine ⟨_, rfl, by simp only [List.length_set, room], fun position low => ?_⟩
  simp only [List.getElem?_set, List.length_set, room]
  by_cases here : position % 4 = i
  · have split : position = i + 4 * (position / 4) := by omega
    have few : position / 4 < 8 := by omega
    rw [if_pos here, digestByte, here]
    generalize position / 4 = word at *
    subst split
    interval_cases word
    all_goals simp
    all_goals omega
  · simp (disch := omega) only [if_neg]

/-- Four turns write the whole digest. -/
theorem output_outputs (state : Words) {hash : Bytes} (room : hash.length = 32) :
    [0, 1, 2, 3].foldlM (outputTurn state) hash = some (digestOf state).toList := by
  obtain ⟨first, turned, size, written⟩ := outputTurn_writes state room (show 0 < 4 by decide)
  obtain ⟨second, turned', size', written'⟩ := outputTurn_writes state size (show 1 < 4 by decide)
  obtain ⟨third, turned'', size'', written''⟩ := outputTurn_writes state size' (show 2 < 4 by decide)
  obtain ⟨last, turned₃, size₃, written₃⟩ := outputTurn_writes state size'' (show 3 < 4 by decide)
  have all : [0, 1, 2, 3].foldlM (outputTurn state) hash = some last := by
    simp only [List.foldlM_cons, List.foldlM_nil, turned, turned', turned'', turned₃, Option.bind_eq_bind, Option.bind_some]
    rfl
  rw [all]
  congr 1
  apply List.ext_getElem?
  intro position
  by_cases low : position < 32
  · have byte : last[position]? = some (digestByte state position) := by
      rw [written₃ position low, written'' position low, written' position low, written position low]
      split_ifs
      all_goals first | rfl | omega
    rw [byte]
    interval_cases position <;> rfl
  · rw [List.getElem?_eq_none (by omega), List.getElem?_eq_none (by rw [Vector.length_toList]; omega)]

private theorem bits_counted {memory : ContextMemory} {context : Context} (holds : Holds memory context) :
    memory.bitlen + (memory.datalen * 8).toUInt64 = context.bitlen + context.data.length.toUInt64 * 8 := by
  have small := holds.small
  rw [holds.bits, ← holds.level]
  congr 1
  apply UInt64.toNat_inj.mp
  have level := holds.level
  simp only [UInt32.toNat_toUInt64, UInt32.toNat_mul, UInt64.toNat_mul, Nat.toUInt64_eq, UInt64.toNat_ofNat',
    show (8 : UInt32).toNat = 8 from rfl, show (8 : UInt64).toNat = 8 from rfl]
  omega

variable {m : List UInt32} (wordRoom : m.length = 64)
include wordRoom

theorem final_finals {memory : ContextMemory} {context : Context} (holds : Holds memory context) {hash : Bytes}
    (room : hash.length = 32) : finalInMemory m memory hash = some (sha256Final context).toList := by
  have bits := bits_counted holds
  obtain ⟨bufferRoom, waiting, level, small, -, words⟩ := holds
  have inside : memory.datalen.toNat < memory.data.length := by omega
  have started := take_stored inside 0x80
  rw [level, waiting] at started
  have sized : (memory.data.set context.data.length 0x80).length = 64 := List.length_set.trans bufferRoom
  have counted : (context.data ++ [0x80]).length = context.data.length + 1 := List.length_append
  have low : memory.datalen < 56 ↔ context.data.length < 56 := by rw [← level]; exact UInt32.lt_iff_toNat_lt
  rw [finalInMemory, store_inside inside, level, bits]
  simp only [Option.bind_eq_bind, Option.bind_some]
  by_cases single : context.data.length < 56
  · obtain ⟨zeroed, loop, size, front, -⟩ := zeroLoop_zeros (show 56 ≤ _ from Nat.le_of_lt_succ (by rw [sized]; decide)) (by omega) counted started
    rw [sized] at size
    rw [List.append_assoc, List.singleton_append, show 56 - (context.data.length + 1) = 55 - context.data.length by omega] at front
    have whole : (zeroed.take 56 ++ lengthBytes (context.bitlen + context.data.length.toUInt64 * 8)).length = 64 := by
      rw [List.length_append, List.length_take, size, lengthBytes_length]
      rfl
    rw [if_pos (low.mpr single), loop]
    simp only [Option.bind_some, pure, storeLength_stores size, transform_transforms wordRoom _ whole, output_outputs _ room]
    rw [sha256Final, if_pos single, front, words]
    rfl
  · obtain ⟨zeroed, loop, size, front, -⟩ := zeroLoop_zeros (show 64 ≤ _ from Nat.le_of_lt_succ (by rw [sized]; decide)) (by omega) counted started
    rw [sized] at size
    rw [List.take_of_length_le (Nat.le_of_eq size), List.append_assoc, List.singleton_append,
      show 64 - (context.data.length + 1) = 63 - context.data.length by omega] at front
    have cleared : (List.replicate 56 0 ++ zeroed.drop 56).length = 64 := by
      rw [List.length_append, List.length_replicate, List.length_drop, size]
    have whole : ((List.replicate 56 0 ++ zeroed.drop 56).take 56 ++
        lengthBytes (context.bitlen + context.data.length.toUInt64 * 8)).length = 64 := by
      rw [List.length_append, List.length_take, cleared, lengthBytes_length]
      rfl
    rw [if_neg fun below => single (low.mp below), loop]
    simp only [Option.bind_some, pure, transform_transforms wordRoom _ size, storeLength_stores cleared,
      transform_transforms wordRoom _ whole, output_outputs _ room]
    rw [sha256Final, if_neg single, front, words, List.take_left' List.length_replicate]
    rfl

end Final

theorem hashing_ends (memory : StackMemory) {fuel : Nat} {message : Bytes} (short : message.length < 2 ^ 32)
    (enough : message.length ≤ fuel) : sha256InMemory memory fuel message = .done (sha256Bytes message).toList := by
  have start := init_holds memory.bufferSize
  obtain ⟨after, updated, holds⟩ := updateLoop_ends memory.wordsSize short (i := 0) (show _ ≤ 0 + fuel by omega) start
  have final := final_finals memory.wordsSize holds memory.digestSize
  by_cases some : message.length > 0
  · simp only [sha256InMemory, if_pos some, updated, Execution.andThen, final]
    rfl
  · obtain rfl : message = [] := List.eq_nil_of_length_eq_zero (by omega)
    have final := final_finals memory.wordsSize start memory.digestSize
    simp only [sha256InMemory, if_neg some, Execution.andThen, final]
    rfl

/-- The implementation in memory stays inside of all its arrays. Whatever they held before, it computes the digest
of a message of less than 4 GiB after a turn for each byte, and it never ends on a longer one. -/
theorem sha256InMemory_ends_below_limit (memory : StackMemory) (fuel : Nat) (message : Bytes) :
    sha256InMemory memory fuel message =
      if 2 ^ 32 ≤ message.length ∨ fuel < message.length then .running else .done (sha256Bytes message).toList := by
  split_ifs with endless
  · have running := updateLoop_runs memory.wordsSize (i := 0) (show _ ∨ 0 + fuel < _ by rwa [Nat.zero_add])
      (init_holds memory.bufferSize)
    simp only [sha256InMemory, if_pos (show message.length > 0 by omega), running, Execution.andThen]
  · exact hashing_ends memory (by omega) (by omega)

end ProcessChain.Proofs.Sha256Memory
