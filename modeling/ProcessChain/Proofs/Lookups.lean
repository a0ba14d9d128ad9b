import ProcessChain.Proofs.Handlers
import ProcessChain.Proofs.Tamper

/-! Looking up blocks. In a valid chain a block stands at the position of its index,
and its hash belongs to no other block unless two hashed texts have the same digest. -/

namespace ProcessChain.Proofs.Lookups
open Lib Lib.FailStop Crypto Validation Storage Handlers Tamper

variable {sha256 : HashFunction}

/-- Two blocks of the chain are hashed as different texts with the same digest. -/
def BlocksCollide (sha256 : HashFunction) (blocks : List Block) : Prop :=
  ∃ first second : Nat, first ≠ second ∧ ∃ one other, blocks[first]? = some one ∧ blocks[second]? = some other ∧
    ∃ text text', (buildBlockHashInput one).result = .ok text ∧ (buildBlockHashInput other).result = .ok text' ∧
      text ≠ text' ∧ sha256 text.bytes = sha256 text'.bytes

/-- Different positions of a valid chain with the same hash are a collision. -/
theorem same_hash_collides {chain : Blockchain} (valid : ValidChain sha256 chain.blocks) {first second : Nat}
    (different : first ≠ second) {one other : Block} (here : chain.blocks[first]? = some one)
    (there : chain.blocks[second]? = some other) {hash : CString} (firstHash : HasHash sha256 hash one)
    (secondHash : HasHash sha256 hash other) : BlocksCollide sha256 chain.blocks := by
  obtain ⟨hashable, rfl⟩ := (blockHash_ok sha256).mp firstHash
  obtain ⟨hashable', same⟩ := (blockHash_ok sha256).mp secondHash
  refine ⟨first, second, different, one, other, here, there, hashInput one, hashInput other,
    hashInput_ok.mpr ⟨hashable, rfl⟩, hashInput_ok.mpr ⟨hashable', rfl⟩, ?_, ?_⟩
  · intro equal
    apply different
    rw [← index_position (Or.inr valid) here, ← index_position (Or.inr valid) there,
      (hashInput_binds hashable hashable' equal).1.index]
  · exact digestToHex_injective (congrArg CString.bytes same)

/-- What is found under a hash has it, and no block in front of it has it unless memory runs out. -/
theorem getByHash_ensures (chain : Blockchain) (hash : CString) :
    Ensures (blockchainGetByHash sha256 chain hash)
      (fun found => ∀ place ∈ found, ∃ block, chain.blocks[place]? = some block ∧ HasHash sha256 hash block)
      fun found => hash.length = sha256HexLength → found = chain.blocks.findIdx? fun block => HasHash sha256 hash block := by
  unfold blockchainGetByHash
  split
  next short => exact .pure (by simp) fun length => absurd length short
  next =>
    refine (scanForHash_ensures sha256 hash chain.blocks 0).weaken ?_ ?_
    · intro found scanned place member
      obtain ⟨offset, block, rfl, here, same⟩ := scanned place member
      exact ⟨block, by rwa [Nat.zero_add], same⟩
    · intro found _ scanned _
      rw [scanned]
      simp

/-- On a valid chain an index finds exactly its position. Unless memory runs out, the
hash of a block finds that block or two blocks collide, and a hash finds nothing else. -/
theorem lookups_are_exact (sha256 : HashFunction) {chain : Blockchain}
    (accepted : (validateBlockchain sha256 chain.blocks).result = .ok ()) :
    (∀ index, blockchainGetByIndex chain index = if index.toNat < chain.count then some index.toNat else none) ∧
      (∀ position block, chain.blocks[position]? = some block →
        ∃ hash, (calculateBlockHash sha256 block).result = .ok hash ∧
          ∀ heap, (blockchainGetByHash sha256 chain hash heap).2.refused = false →
            (blockchainGetByHash sha256 chain hash heap).1 = some position ∨ BlocksCollide sha256 chain.blocks) ∧
      ∀ hash heap position, (blockchainGetByHash sha256 chain hash heap).1 = some position →
        ∃ block, chain.blocks[position]? = some block ∧ (calculateBlockHash sha256 block).result = .ok hash := by
  have valid := (blockchain_ok sha256).mp accepted
  refine ⟨getByIndex_settled (Or.inr valid), ?_, ?_⟩
  · intro position block here
    have hashable := (valid.sound block (List.mem_of_getElem? here)).hashable
    have hashed : HasHash sha256 (blockHash sha256 block) block := (blockHash_ok sha256).mpr ⟨hashable, rfl⟩
    refine ⟨blockHash sha256 block, hashed, ?_⟩
    intro heap granted
    have found := ((getByHash_ensures chain (blockHash sha256 block)).granted heap granted).2 (digestToHex_length _)
    rw [found]
    cases first : chain.blocks.findIdx? fun block' => HasHash sha256 (blockHash sha256 block) block' with
    | none =>
      have unhashed := List.findIdx?_eq_none_iff.mp first block (List.mem_of_getElem? here)
      exact absurd hashed (by simpa using unhashed)
    | some earlier =>
      obtain ⟨inside, same, _⟩ := List.findIdx?_eq_some_iff_getElem.mp first
      by_cases equal : earlier = position
      · exact Or.inl (congrArg some equal)
      · right
        exact same_hash_collides valid equal (List.getElem?_eq_getElem inside) here (by simpa using same) hashed
  · intro hash heap position found
    obtain ⟨block, here, same⟩ := (getByHash_ensures chain hash).always heap position found
    exact ⟨block, here, same⟩

theorem fixture_lookups : ∃ chain : Blockchain, chain.blocks = [genesisBlock, paymentBlock] ∧
    ∀ index, blockchainGetByIndex chain index = if index.toNat < 2 then some index.toNat else none :=
  ⟨⟨[genesisBlock, paymentBlock], 4, by decide, by decide⟩, rfl, (lookups_are_exact sha256Bytes fixture_accepted).1⟩

end ProcessChain.Proofs.Lookups
