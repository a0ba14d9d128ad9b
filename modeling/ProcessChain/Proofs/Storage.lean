import ProcessChain.Blockchain
import ProcessChain.Lib.Supplied
import ProcessChain.Proofs.Validation

/-! What the chain operations ensure when allocations may fail: an append either
adds a copy of the block at the end or leaves all blocks as they are. -/

namespace ProcessChain.Proofs.Storage
open Lib Lib.FailStop Csv Validation

theorem attempt_ensures {α : Type} (program : Alloc α) :
    Ensures (attempt program) (fun result => ∀ value, result = .ok value → program.result = .ok value)
      fun result => result = program.result ∧ ∀ request ∈ program.requests, request.size ≤ ptrdiffMax :=
  FailStop.ensures ptrdiffMax program

theorem succeeds_ensures (program : Alloc Unit) :
    Ensures (succeeds program) (fun succeeded => succeeded = true → program.result = .ok ())
      fun succeeded => program.result = .ok () → succeeded = true := by
  apply (attempt_ensures program).bind
  intro result succeeded
  cases result with
  | error error => exact .pure (by simp) fun same => by simp [← same.1]
  | ok done => exact .pure (fun _ => succeeded () rfl) (by simp)

theorem malloc_ensures (size : Nat) :
    Ensures (succeeds (malloc size)) (fun _ => True) fun succeeded => succeeded = true :=
  (succeeds_ensures (malloc size)).weaken (fun _ _ => trivial) fun _ _ granted => granted rfl

theorem attempt_reveals {α : Type} (program : Alloc α) :
    Reveals (attempt program) fun result => ∃ error, result = .error error :=
  FailStop.reveals ptrdiffMax program

theorem malloc_reveals (size : Nat) : Reveals (succeeds (malloc size)) fun enough => enough = false := by
  apply (attempt_reveals (malloc size)).bind
  · intro result
    cases result <;> exact .pure _
  · intro result failed supply
    obtain ⟨error, rfl⟩ := failed
    rfl

/-- An early return where a buffer cannot be allocated. -/
theorem guarded_ensures {α : Type} {size : Nat} {early : α} {rest : HeapM α} {always granted : α → Prop}
    (refused : always early) (continued : Ensures rest always granted) :
    Ensures (do
      if !(← succeeds (malloc size)) then return early
      rest) always granted := by
  apply (malloc_ensures size).bind
  intro enough _
  cases enough with
  | false => exact .pure refused (by simp)
  | true => exact continued.weaken (fun _ kept => kept) fun _ _ holds _ => holds

/-- The array is large enough, or a request for a larger one was too large. -/
private theorem reserve_result (chain : Blockchain) :
    (∃ reserved, (blockchainReserve chain).result = .ok reserved) ∨
      ∃ request ∈ (blockchainReserve chain).requests, ¬ request.size ≤ ptrdiffMax := by
  unfold blockchainReserve
  split
  next full =>
    simp only [blockchainGrow, malloc]
    by_cases allocated :
        (if chain.capacity = 0 then initialBlockchainCapacity else chain.capacity * 2) * sizeofBlock ≤ ptrdiffMax
    · simp only [dif_pos allocated]
      exact Or.inl ⟨_, result_bind_eq_ok.mpr ⟨(), rfl, rfl⟩⟩
    · simp only [dif_neg allocated]
      exact Or.inr ⟨_, List.mem_cons_self, allocated⟩
  next => exact Or.inl ⟨_, rfl⟩

theorem append_ensures (chain : Blockchain) (block : Block) :
    Ensures (blockchainAppend chain block)
      (fun outcome => match outcome.1 with
        | .ok _ => outcome.2.blocks = chain.blocks ++ [block]
        | .error _ => outcome.2.blocks = chain.blocks)
      fun outcome => WellSized block.transactions → outcome.1 = .ok () := by
  apply (attempt_ensures (blockchainReserve chain)).bind
  intro result _
  cases result with
  | error error =>
    refine .pure rfl fun failed => ?_
    rcases reserve_result chain with ⟨_, succeeded⟩ | ⟨request, made, large⟩
    · rw [succeeded] at failed
      cases failed.1
    · exact absurd (failed.2 request made) large
  | ok reserved =>
    obtain ⟨grown, same, room⟩ := reserved
    apply (attempt_ensures (blockCopy block)).bind
    intro result copied
    cases result with
    | error error =>
      refine .pure same fun failed _ sized => ?_
      rw [copy_succeeds sized] at failed
      cases failed.1
    | ok copy =>
      refine .pure ?_ fun _ _ _ => rfl
      rw [copy_same (copied copy rfl)]
      exact congrArg (· ++ [block]) same

/-- The block has this hash. -/
def HasHash (sha256 : HashFunction) (hash : CString) (block : Block) : Prop :=
  (calculateBlockHash sha256 block).result = .ok hash

instance (sha256 : HashFunction) (hash : CString) (block : Block) : Decidable (HasHash sha256 hash block) :=
  inferInstanceAs (Decidable ((calculateBlockHash sha256 block).result = .ok hash))

/-- A scan stops at a block with the hash, and at the first one unless memory runs out. -/
theorem scanForHash_ensures (sha256 : HashFunction) (hash : CString) (blocks : List Block) (position : Nat) :
    Ensures (scanForHash sha256 hash blocks position)
      (fun found => ∀ place ∈ found, ∃ offset block, place = position + offset ∧ blocks[offset]? = some block ∧
        HasHash sha256 hash block)
      fun found => found = (blocks.findIdx? fun block => HasHash sha256 hash block).map (position + ·) := by
  induction blocks generalizing position with
  | nil => exact .pure (by simp) rfl
  | cons block rest ih =>
    have further {found : Option Nat} (later : ∀ place ∈ found, ∃ offset inner, place = position + 1 + offset ∧
        rest[offset]? = some inner ∧ HasHash sha256 hash inner) : ∀ place ∈ found, ∃ offset inner, place = position + offset ∧
          (block :: rest)[offset]? = some inner ∧ HasHash sha256 hash inner := by
      intro place member
      obtain ⟨offset, inner, rfl, here, same⟩ := later place member
      exact ⟨offset + 1, inner, by omega, here, same⟩
    have passed {found : Option Nat} (other : ¬ HasHash sha256 hash block)
        (scanned : found = (rest.findIdx? fun block => HasHash sha256 hash block).map (position + 1 + ·)) :
        found = ((block :: rest).findIdx? fun block => HasHash sha256 hash block).map (position + ·) := by
      have shift : (fun offset => position + (offset + 1)) = fun offset => position + 1 + offset := by
        funext offset
        omega
      rw [scanned, List.findIdx?_cons, if_neg (by simpa using other), Option.map_map]
      exact congrArg (Option.map · _) shift.symm
    apply (attempt_ensures _).bind
    intro result computed
    cases result with
    | error error =>
      refine (ih (position + 1)).weaken (fun _ later => further later) ?_
      intro found _ scanned failed
      refine passed ?_ scanned
      rw [HasHash, ← failed.1]
      exact nofun
    | ok calculatedHash =>
      have calculated := computed calculatedHash rfl
      dsimp only
      split
      next same =>
        have here : HasHash sha256 hash block := by rw [HasHash, calculated, same]
        refine .pure ?_ fun _ => ?_
        · intro place member
          cases member
          exact ⟨0, block, rfl, rfl, here⟩
        · rw [List.findIdx?_cons, if_pos (by simpa using here)]
          rfl
      next different =>
        refine (ih (position + 1)).weaken (fun _ later => further later) ?_
        intro found _ scanned _
        refine passed ?_ scanned
        intro here
        rw [HasHash, calculated] at here
        exact different (Except.ok.inj here)

end ProcessChain.Proofs.Storage
