import ProcessChain.Sha256
import ProcessChain.Lib.MerkleDamgard
import ProcessChain.Proofs.Wire

/-! The vendored SHA-256 as the standard defines it: the message is padded to whole
blocks, the last of which ends in its length, and the compression function is run over
the blocks. So a collision of the hash is one of the compression function. -/

namespace ProcessChain.Proofs.Sha256
open Lib Lib.MerkleDamgard ProcessChain.Sha256

def blockSize : Nat := 64

/-- The zeros that the padding needs between its first byte and the length. -/
def paddingZeros (length : Nat) : Nat := (119 - length % blockSize) % blockSize

/-- The message with the byte `0x80`, zeros and its length in bits. -/
def padded (message : Bytes) : Bytes :=
  message ++ 0x80 :: List.replicate (paddingZeros message.length) 0 ++ lengthBytes (message.length.toUInt64 * 8)

def paddedBlocks (message : Bytes) : List Bytes := blocksOf blockSize ((padded message).length / blockSize) (padded message)

def digestOf (words : Words) : Digest :=
  ⟨(bigEndianBytes words.a ++ bigEndianBytes words.b ++ bigEndianBytes words.c ++ bigEndianBytes words.d ++
    bigEndianBytes words.e ++ bigEndianBytes words.f ++ bigEndianBytes words.g ++ bigEndianBytes words.h).toArray, rfl⟩

/-- SHA-256 over the blocks of the padded message. -/
def standard (message : Bytes) : Digest := digestOf ((paddedBlocks message).foldl sha256Transform sha256Init.state)

theorem lengthBytes_length (bits : UInt64) : (lengthBytes bits).length = 8 := rfl

theorem padded_length (message : Bytes) :
    (padded message).length = message.length + 9 + paddingZeros message.length ∧ blockSize ∣ (padded message).length := by
  have total : (padded message).length = message.length + 9 + paddingZeros message.length := by
    simp only [padded, List.length_append, List.length_cons, List.length_replicate, lengthBytes_length]
    omega
  refine ⟨total, ?_⟩
  simp only [total, paddingZeros, blockSize]
  omega

/-- No smaller number of zeros fills up the last block. -/
theorem paddingZeros_least {length zeros : Nat} (whole : blockSize ∣ length + 9 + zeros) : paddingZeros length ≤ zeros := by
  simp only [paddingZeros, blockSize] at whole ⊢
  omega

section Streaming

/-- A context as a reader of blocks. -/
def readerOf (context : Context) : Reader Words UInt8 := ⟨context.state, context.data⟩

/-- The bits that are counted already and those of the bytes that wait. -/
def bitsOf (context : Context) : UInt64 := context.bitlen + context.data.length.toUInt64 * 8

/-- A byte that fills up the buffer. -/
theorem update_full {context : Context} (full : context.data.length + 1 = 64) (byte : UInt8) :
    sha256Update context [byte] = ⟨[], context.bitlen + 512, sha256Transform context.state (context.data ++ [byte])⟩ := by
  have pending : context.data.length = 63 := by omega
  simp [sha256Update, pending]

theorem update_kept {context : Context} (short : context.data.length + 1 ≠ 64) (byte : UInt8) :
    sha256Update context [byte] = { context with data := context.data ++ [byte] } := by
  have pending : context.data.length ≠ 63 := by omega
  simp [sha256Update, pending]

/-- One byte is fed to the reader and counted. -/
private theorem update_byte (context : Context) (byte : UInt8) :
    readerOf (sha256Update context [byte]) = feed blockSize sha256Transform (readerOf context) byte ∧
      bitsOf (sha256Update context [byte]) = bitsOf context + 8 := by
  by_cases full : context.data.length + 1 = 64
  · have pending : context.data.length = 63 := by omega
    have fed : feed blockSize sha256Transform (readerOf context) byte =
        ⟨sha256Transform context.state (context.data ++ [byte]), []⟩ := if_pos full
    rw [update_full full, fed, bitsOf, bitsOf, pending]
    exact ⟨rfl, by simp only [List.length_nil]; grind⟩
  · have fed : feed blockSize sha256Transform (readerOf context) byte = ⟨context.state, context.data ++ [byte]⟩ := if_neg full
    rw [update_kept full, fed, bitsOf, bitsOf]
    simp only [List.length_append, List.length_singleton, Nat.toUInt64_eq, UInt64.ofNat_add]
    exact ⟨rfl, by grind⟩

theorem update_append (context : Context) (first second : Bytes) :
    sha256Update context (first ++ second) = sha256Update (sha256Update context first) second :=
  List.foldl_append

/-- The context after a message is the reader after it, with the length of the message. -/
theorem update_reader (message : Bytes) :
    readerOf (sha256Update sha256Init message) = absorb blockSize sha256Transform (readerOf sha256Init) message ∧
      bitsOf (sha256Update sha256Init message) = message.length.toUInt64 * 8 := by
  induction message using List.reverseRecOn with
  | nil => exact ⟨rfl, rfl⟩
  | append_singleton front last ih =>
    obtain ⟨read, counted⟩ := update_byte (sha256Update sha256Init front) last
    rw [update_append, absorb_append, read, counted, ih.1, ih.2]
    refine ⟨rfl, ?_⟩
    simp only [List.length_append, List.length_singleton, Nat.toUInt64_eq, UInt64.ofNat_add]
    grind

/-- The last one or two blocks of the padded message. -/
private theorem final_blocks (context : Context) {message : Bytes} (waiting : context.data.length = message.length % blockSize)
    (counted : bitsOf context = message.length.toUInt64 * 8) :
    let rest := context.data ++ 0x80 :: List.replicate (paddingZeros message.length) 0 ++ lengthBytes (message.length.toUInt64 * 8)
    sha256Final context = digestOf ((blocksOf blockSize (rest.length / blockSize) rest).foldl sha256Transform context.state) := by
  intro rest
  have bits : context.bitlen + context.data.length.toUInt64 * 8 = message.length.toUInt64 * 8 := counted
  have small : context.data.length < 64 := waiting ▸ Nat.mod_lt _ (by decide)
  by_cases single : context.data.length < 56
  · have zeros : paddingZeros message.length = 55 - context.data.length := by
      simp only [paddingZeros, blockSize] at waiting ⊢
      omega
    have sized : rest.length = blockSize := by
      simp only [rest, zeros, List.length_append, List.length_cons, List.length_replicate, lengthBytes_length, blockSize]
      omega
    rw [sized, Nat.div_self (by decide), blocksOf, blocksOf, List.take_of_length_le (Nat.le_of_eq sized)]
    simp only [sha256Final, if_pos single, bits, rest, zeros]
    rfl
  · have zeros : paddingZeros message.length = 63 - context.data.length + 56 := by
      simp only [paddingZeros, blockSize] at waiting ⊢
      omega
    -- the first block is filled with zeros, the second one has nothing but zeros and the length
    have split : rest = (context.data ++ 0x80 :: List.replicate (63 - context.data.length) 0) ++
        (List.replicate 56 0 ++ lengthBytes (message.length.toUInt64 * 8)) := by
      simp only [rest, zeros, List.replicate_add, List.append_assoc, List.cons_append]
    have first : (context.data ++ 0x80 :: List.replicate (63 - context.data.length) 0).length = blockSize := by
      simp only [List.length_append, List.length_cons, List.length_replicate, blockSize]
      omega
    have second : (List.replicate 56 0 ++ lengthBytes (message.length.toUInt64 * 8)).length = blockSize := rfl
    have two : rest.length / blockSize = 2 := by rw [split, List.length_append, first, second]; rfl
    rw [two, split, blocksOf, blocksOf, blocksOf, List.take_left' first, List.drop_left' first,
      List.take_of_length_le (Nat.le_of_eq second)]
    simp only [sha256Final, if_neg single, bits]
    rfl

/-- The blocks of the padded message: those of the message, then what is left with the padding. -/
private theorem paddedBlocks_split {message : Bytes} {count : Nat} (blocks : message.length / blockSize = count) :
    let rest := message.drop (count * blockSize) ++ 0x80 :: List.replicate (paddingZeros message.length) 0 ++
      lengthBytes (message.length.toUInt64 * 8)
    paddedBlocks message = blocksOf blockSize count message ++ blocksOf blockSize (rest.length / blockSize) rest := by
  intro rest
  have covered : count * blockSize ≤ message.length := blocks ▸ Nat.div_mul_le_self _ _
  have behind : (padded message).drop (count * blockSize) = rest := by
    simp only [padded, rest, List.append_assoc]
    exact List.drop_append_of_le_length covered
  have counted : (padded message).length / blockSize = count + rest.length / blockSize := by
    have sized := congrArg List.length behind
    rw [List.length_drop] at sized
    have long : count * blockSize ≤ (padded message).length := by
      rw [(padded_length message).1]
      omega
    rw [← sized, Nat.mul_comm count, Nat.sub_mul_div, Nat.add_sub_cancel' ((Nat.le_div_iff_mul_le (by decide)).mpr long)]
  have start : blocksOf blockSize count (padded message) = blocksOf blockSize count message := by
    simp only [padded, List.append_assoc]
    exact blocksOf_append covered _
  rw [paddedBlocks, counted, blocksOf_add, behind, start]

/-- The streaming implementation computes the standard's SHA-256 of every message. -/
theorem sha256_is_standard (message : Bytes) : sha256Bytes message = standard message := by
  obtain ⟨read, counted⟩ := update_reader message
  have after := read.trans (absorb_blocks sha256Transform sha256Init.state message (show 0 < blockSize by decide))
  generalize blocks : message.length / blockSize = count at after
  have state : (sha256Update sha256Init message).state = _ := congrArg Reader.state after
  have data : (sha256Update sha256Init message).data = _ := congrArg Reader.pending after
  have waiting : (sha256Update sha256Init message).data.length = message.length % blockSize := by
    rw [data, List.length_drop, ← blocks, Nat.mod_eq_sub_div_mul]
  have final := final_blocks (sha256Update sha256Init message) waiting counted
  rw [state, data] at final
  rw [sha256Bytes, final, standard, paddedBlocks_split blocks, List.foldl_append]

end Streaming

section Collisions

/-- The inputs of the compression function while a message is hashed. -/
def compressions (message : Bytes) : List (Words × Bytes) := inputs sha256Transform sha256Init.state (paddedBlocks message)

private theorem bigEndianBytes_store (word : UInt32) : bigEndianBytes word = ByteOrder.big.store 4 word.toNat := by
  simp only [bigEndianBytes, ByteOrder.store, ByteOrder.arrange, fixedDigits, List.map_nil, List.map_cons, List.nil_append,
    List.cons_append, List.cons.injEq, and_true]
  refine ⟨?_, ?_, ?_, ?_⟩
  all_goals
    apply UInt8.toNat_inj.mp
    simp [Nat.shiftRight_eq_div_pow]
  all_goals omega

private theorem lengthBytes_store (bits : UInt64) : lengthBytes bits = ByteOrder.big.store 8 bits.toNat := by
  simp only [lengthBytes, ByteOrder.store, ByteOrder.arrange, fixedDigits, List.map_nil, List.map_cons, List.nil_append,
    List.cons_append, List.cons.injEq, and_true]
  refine ⟨?_, ?_, ?_, ?_, ?_, ?_, ?_, ?_⟩
  all_goals
    apply UInt8.toNat_inj.mp
    simp [Nat.shiftRight_eq_div_pow]
  all_goals omega

private theorem store_injective {width first second : Nat} (firstSmall : first < 256 ^ width)
    (secondSmall : second < 256 ^ width) (same : ByteOrder.big.store width first = ByteOrder.big.store width second) :
    first = second := by
  rw [← Wire.load_store .big firstSmall, same, Wire.load_store .big secondSmall]

private theorem lengthBytes_injective {first second : UInt64} (same : lengthBytes first = lengthBytes second) :
    first = second := by
  rw [lengthBytes_store, lengthBytes_store] at same
  exact UInt64.toNat_inj.mp (store_injective first.toNat_lt second.toNat_lt same)

private theorem bigEndianBytes_injective {first second : UInt32} (same : bigEndianBytes first = bigEndianBytes second) :
    first = second := by
  rw [bigEndianBytes_store, bigEndianBytes_store] at same
  exact UInt32.toNat_inj.mp (store_injective first.toNat_lt second.toNat_lt same)

/-- The digest shows all words of the state. -/
theorem digestOf_injective {first second : Words} (same : digestOf first = digestOf second) : first = second := by
  have bytes : (digestOf first).toList = (digestOf second).toList := congrArg Vector.toList same
  simp only [digestOf, Vector.toList] at bytes
  obtain ⟨bytes, h⟩ := List.append_inj' bytes rfl
  obtain ⟨bytes, g⟩ := List.append_inj' bytes rfl
  obtain ⟨bytes, f⟩ := List.append_inj' bytes rfl
  obtain ⟨bytes, e⟩ := List.append_inj' bytes rfl
  obtain ⟨bytes, d⟩ := List.append_inj' bytes rfl
  obtain ⟨bytes, c⟩ := List.append_inj' bytes rfl
  obtain ⟨a, b⟩ := List.append_inj' bytes rfl
  cases first
  cases second
  simp only [Words.mk.injEq]
  exact ⟨bigEndianBytes_injective a, bigEndianBytes_injective b, bigEndianBytes_injective c, bigEndianBytes_injective d,
    bigEndianBytes_injective e, bigEndianBytes_injective f, bigEndianBytes_injective g, bigEndianBytes_injective h⟩

/-- The last block ends in the length of the message. -/
private theorem paddedBlocks_last (message : Bytes) : ∃ front last, paddedBlocks message = front ++ [last] ∧
    (front.length + 1) * blockSize = (padded message).length ∧ lengthBytes (message.length.toUInt64 * 8) <:+ last := by
  obtain ⟨total, count, whole⟩ := padded_length message
  obtain ⟨earlier, rfl⟩ : ∃ earlier, count = earlier + 1 := ⟨count - 1, by simp only [blockSize] at whole; omega⟩
  have blocks : paddedBlocks message = blocksOf blockSize (earlier + 1) (padded message) := by
    rw [paddedBlocks, whole, Nat.mul_div_cancel_left _ (by decide)]
  have sized : ((padded message).drop (earlier * blockSize)).length = blockSize := by
    rw [List.length_drop, whole, blockSize]
    omega
  refine ⟨_, _, blocks.trans (blocksOf_succ _ _ _), ?_, ?_⟩
  · rw [blocksOf_length, whole, Nat.mul_comm]
  · rw [List.take_of_length_le (Nat.le_of_eq sized)]
    refine List.suffix_of_suffix_length_le (List.suffix_append _ _) (List.drop_suffix _ _) ?_
    rw [sized, lengthBytes_length]
    decide

private theorem paddedBlocks_flatten (message : Bytes) : (paddedBlocks message).flatten = padded message := by
  rw [paddedBlocks, blocksOf_flatten, Nat.div_mul_cancel (padded_length message).2, List.take_length]

/-- The bit lengths of messages below 2 ^ 61 bytes fit into the last block. -/
private theorem length_binds {first second : Nat} (firstShort : first < 2 ^ 61) (secondShort : second < 2 ^ 61)
    (same : first.toUInt64 * 8 = second.toUInt64 * 8) : first = second := by
  have numbers := congrArg UInt64.toNat same
  simp only [UInt64.toNat_mul, Nat.toUInt64_eq, UInt64.toNat_ofNat', show (8 : UInt64).toNat = 8 from rfl] at numbers
  omega

/-- Two messages with one hash lead to two different inputs of the compression function with one output. -/
theorem collision_compresses {first second : Bytes} (different : first ≠ second) (firstShort : first.length < 2 ^ 61)
    (secondShort : second.length < 2 ^ 61) (same : sha256Bytes first = sha256Bytes second) :
    Meets sha256Transform (compressions first ++ compressions second) := by
  rw [sha256_is_standard, sha256_is_standard] at same
  have states := digestOf_injective same
  by_contra clean
  obtain ⟨front, last, blocks, whole, ending⟩ := paddedBlocks_last first
  obtain ⟨front', last', blocks', whole', ending'⟩ := paddedBlocks_last second
  have lengths (lasts : last = last') : first.length = second.length := by
    subst lasts
    have bytes := List.IsSuffix.eq_of_length (List.suffix_of_suffix_length_le ending ending' (Nat.le_refl _)) rfl
    exact length_binds firstShort secondShort (lengthBytes_injective bytes)
  rw [blocks, blocks'] at states
  have bound : front ++ [last] = front' ++ [last'] := by
    refine padding_binds (fun lasts => ?_) states ?_
    · have sizes := (padded_length first).1
      rw [lengths lasts, ← (padded_length second).1, ← whole, ← whole'] at sizes
      exact Nat.succ.inj (Nat.eq_of_mul_eq_mul_right (by decide) sizes)
    · rwa [compressions, compressions, blocks, blocks'] at clean
  have lasts : last = last' := List.singleton_inj.mp (List.append_inj' bound rfl).2
  have paddings : padded first = padded second := by
    rw [← paddedBlocks_flatten, ← paddedBlocks_flatten, blocks, blocks', bound]
  simp only [padded, List.append_assoc] at paddings
  exact different (List.append_inj paddings (lengths lasts)).1

/-- The hash determines a message of less than 2 ^ 61 bytes, unless one can read off the two messages two different
inputs of the compression function with the same output. -/
theorem digest_determines_message {first second : Bytes} (firstShort : first.length < 2 ^ 61)
    (secondShort : second.length < 2 ^ 61) (same : sha256Bytes first = sha256Bytes second) :
    first = second ∨
      ∃ left ∈ compressions first ++ compressions second, ∃ right ∈ compressions first ++ compressions second,
        left ≠ right ∧ sha256Transform left.1 left.2 = sha256Transform right.1 right.2 :=
  or_iff_not_imp_left.mpr fun different => collision_compresses different firstShort secondShort same

/-- Trivially so for a message and itself. -/
theorem digest_determines_abc : ascii "abc" = ascii "abc" ∨
    ∃ left ∈ compressions (ascii "abc") ++ compressions (ascii "abc"),
      ∃ right ∈ compressions (ascii "abc") ++ compressions (ascii "abc"),
        left ≠ right ∧ sha256Transform left.1 left.2 = sha256Transform right.1 right.2 :=
  digest_determines_message (by decide) (by decide) rfl

end Collisions

end ProcessChain.Proofs.Sha256
