import ProcessChain.MempoolSlots
import ProcessChain.Proofs.MinerSteps

/-! The pool in memory is a bounded multiset of transactions: every call finds its
slots, and does to the array what the same call does to the list of its strings. -/

namespace ProcessChain.Proofs.Pool

/-- The counted slots hold these transactions, in this order. -/
structure Holds (memory : PoolMemory) (transactions : List CString) : Prop where
  counted : memory.count = transactions.length
  held : ∀ index (inside : index < transactions.length), memory.read index = some transactions[index]

theorem copyInto_ok (memory : PoolMemory) {index : Nat} {string : CString} (inside : index < mempoolCapacity)
    (short : string.length < maxTransactionLength) : ∃ copied, memory.copyInto index string = some copied := by
  unfold PoolMemory.copyInto
  rw [dif_pos ⟨memory.array.symm ▸ inside, short⟩]
  exact ⟨_, rfl⟩

/-- The slot holds the string that was copied; every other slot is as before. -/
theorem read_copyInto {memory copied : PoolMemory} {index : Nat} {string : CString}
    (written : memory.copyInto index string = some copied) (slot : Nat) :
    copied.read slot = if slot = index then some string else memory.read slot := by
  unfold PoolMemory.copyInto at written
  split at written
  next inside =>
    rw [← Option.some.inj written]
    split
    next same =>
      subst slot
      simp [PoolMemory.read, inside.1, CString.ofMemory_written]
    next other =>
      simp only [PoolMemory.read, List.getElem?_set_ne (Ne.symm other)]
  next => cases written

theorem Holds.append {memory copied : PoolMemory} {transactions : List CString} (holds : Holds memory transactions)
    {transaction : CString} (written : memory.copyInto memory.count transaction = some copied) :
    Holds { copied with count := memory.count + 1 } (transactions ++ [transaction]) := by
  refine ⟨by simp [holds.counted], fun index inside => ?_⟩
  change copied.read index = _
  rw [read_copyInto written index, holds.counted]
  split
  next last => simp [last]
  next other =>
    have early : index < transactions.length := by
      simp only [List.length_append, List.length_singleton] at inside
      omega
    rw [holds.held index early, List.getElem_append_left early]

/-- The last transaction leaves when the count goes down. -/
theorem Holds.shrink {memory : PoolMemory} {transactions : List CString} (holds : Holds memory transactions) :
    Holds { memory with count := memory.count - 1 } transactions.dropLast := by
  refine ⟨by simp [holds.counted], fun index inside => ?_⟩
  rw [List.length_dropLast] at inside
  rw [List.getElem_dropLast]
  exact holds.held index (by omega)

theorem Holds.set {memory copied : PoolMemory} {transactions : List CString} (holds : Holds memory transactions)
    {index : Nat} {transaction : CString} (written : memory.copyInto index transaction = some copied) :
    Holds copied (transactions.set index transaction) := by
  refine ⟨by rw [PoolMemory.copyInto_count written, List.length_set, holds.counted], fun slot inside => ?_⟩
  rw [List.length_set] at inside
  rw [read_copyInto written slot, List.getElem_set]
  split
  next same => rw [if_pos same.symm]
  next other => rw [if_neg (Ne.symm other), holds.held slot inside]

theorem Holds.snapshot {memory : PoolMemory} {transactions : List CString} (holds : Holds memory transactions)
    {count : Nat} (enough : count ≤ transactions.length) :
    (List.range count).mapM memory.read = some (transactions.take count) := by
  induction count with
  | zero => rfl
  | succ count ih =>
    have last := holds.held count (by omega)
    rw [List.range_succ, List.mapM_append, ih (by omega), List.take_add_one, List.getElem?_eq_getElem (by omega)]
    simp [last]

theorem Holds.entries {memory : PoolMemory} {transactions : List CString} (holds : Holds memory transactions) :
    memory.entries = some transactions := by
  rw [PoolMemory.entries, holds.counted, holds.snapshot (Nat.le_refl _), List.take_length]

/-- The loop over the slots computes the loop over the list. -/
theorem removeLoop_holds (included transactions : List CString) (index : Nat) {memory : PoolMemory}
    (holds : Holds memory transactions) (bounded : transactions.length ≤ mempoolCapacity)
    (sized : ∀ transaction ∈ transactions, transaction.length < maxTransactionLength) :
    ∃ after, memory.removeLoop included index = some after ∧
      Holds after (removeLoop included transactions index) := by
  fun_induction removeLoop included transactions index generalizing memory with
  | case1 transactions index inside matched ih =>
    have visible : transactions ≠ [] := List.ne_nil_of_length_pos (by omega)
    have room : (dropSlot transactions index inside).length ≤ mempoolCapacity := by
      rw [dropSlot_length]
      omega
    have fits : ∀ transaction ∈ dropSlot transactions index inside, transaction.length < maxTransactionLength :=
      fun transaction member => sized transaction (dropSlot_subset transactions index inside transaction member)
    rw [PoolMemory.removeLoop, if_pos (holds.counted ▸ inside), holds.held index inside]
    simp only [if_pos matched]
    split
    next early =>
      have final : memory.read (memory.count - 1) = some (transactions.getLast visible) := by
        rw [holds.counted, holds.held _ (by omega), List.getLast_eq_getElem]
      obtain ⟨copied, written⟩ := copyInto_ok memory
        (Nat.lt_of_lt_of_le inside bounded) (sized _ (List.getLast_mem visible))
      split
      next failed =>
        rw [final, Option.bind_some, written] at failed
        cases failed
      next found moved =>
        rw [final, Option.bind_some] at moved
        have shorter := (holds.set moved).shrink
        rw [PoolMemory.copyInto_count moved] at shorter
        exact ih shorter room fits
    next last =>
      have same : dropSlot transactions index inside = transactions.dropLast := by
        obtain rfl : index = transactions.length - 1 := by
          rw [holds.counted] at last
          omega
        rw [dropSlot, List.getLast_eq_getElem, List.set_getElem_self]
      exact ih (same ▸ holds.shrink) room fits
  | case2 transactions index inside other ih =>
    rw [PoolMemory.removeLoop, if_pos (holds.counted ▸ inside), holds.held index inside]
    simp only [if_neg other]
    exact ih holds bounded sized
  | case3 transactions index done =>
    rw [PoolMemory.removeLoop, if_neg (holds.counted ▸ done)]
    exact ⟨memory, rfl, holds⟩

/-- What a call answers, and what it does to the strings in the pool. -/
inductive CallSpec (before : List CString) : PoolCall → PoolReply → List CString → Prop
  | failed (argument : Option CString) (error : ProjectError)
      (refused : ∀ transaction ∈ argument, transaction.length = 0 ∨ transaction.length ≥ maxTransactionLength ∨
        before.length ≥ mempoolCapacity) :
      CallSpec before (.add argument) (.added (.error error)) before
  | added (transaction : CString) (sized : 0 < transaction.length ∧ transaction.length < maxTransactionLength)
      (room : before.length < mempoolCapacity) :
      CallSpec before (.add (some transaction)) (.added (.ok ())) (before ++ [transaction])
  | nowhere (maxCount : Nat) : CallSpec before (.snapshot false maxCount) (.copied []) before
  | copied (maxCount : Nat) :
      CallSpec before (.snapshot true maxCount) (.copied (before.take (min before.length maxCount))) before
  | unlisted : CallSpec before (.removeIncluded none) .removed before
  | cleaned (included : List CString) {after : List CString}
      (kept : after.Perm (before.filter fun transaction => transaction ∉ included)) :
      CallSpec before (.removeIncluded (some included)) .removed after

/-- What cleaning leaves is the rest of the pool, in another order. -/
theorem removeIncluded_perm (pool : Mempool) (included : List CString) :
    (mempoolRemoveIncluded pool included).transactions.Perm
      (pool.transactions.filter fun transaction => transaction ∉ included) := by
  rw [List.perm_iff_count]
  intro transaction
  rw [MinerSteps.removeIncluded_count]
  split
  next listed =>
    refine (List.count_eq_zero.mpr fun member => ?_).symm
    simpa [listed] using (List.mem_filter.mp member).2
  next other => exact (List.count_filter (by simpa using other)).symm

theorem call_spec (pool : Mempool) (call : PoolCall) :
    CallSpec pool.transactions call (pool.call call).1 (pool.call call).2.transactions := by
  cases call with
  | add argument =>
    cases argument with
    | none => exact .failed none .invalidArgument (by simp)
    | some transaction =>
      simp only [Mempool.call, mempoolAdd]
      by_cases size : transaction.length = 0 ∨ transaction.length ≥ maxTransactionLength
      · rw [dif_pos size]
        refine .failed (some transaction) .invalidTransaction fun same given => ?_
        rw [← Option.some.inj given]
        exact or_assoc.mp (Or.inl size)
      by_cases full : pool.transactions.length ≥ mempoolCapacity
      · rw [dif_neg size, dif_pos full]
        exact .failed (some transaction) .invalidBlock fun _ _ => Or.inr (Or.inr full)
      rw [dif_neg size, dif_neg full]
      exact .added transaction (by omega) (Nat.lt_of_not_le full)
  | snapshot out maxCount =>
    cases out with
    | false => exact .nowhere maxCount
    | true =>
      have same : mempoolSnapshot pool maxCount = pool.transactions.take (min pool.transactions.length maxCount) := by
        rw [mempoolSnapshot, Nat.min_comm, List.take_eq_take_min]
      simp only [Mempool.call, same]
      exact .copied maxCount
  | removeIncluded included =>
    cases included with
    | none => exact .unlisted
    | some included => exact .cleaned included (removeIncluded_perm pool included)

/-- A call on the memory succeeds, and is the call on the list of strings. -/
theorem call_holds {memory : PoolMemory} {pool : Mempool} (holds : Holds memory pool.transactions) (call : PoolCall) :
    ∃ next, memory.call call = some ((pool.call call).1, next) ∧ Holds next (pool.call call).2.transactions := by
  cases call with
  | add argument =>
    cases argument with
    | none => exact ⟨memory, rfl, holds⟩
    | some transaction =>
      simp only [PoolMemory.call, Mempool.call, mempoolAdd]
      by_cases size : transaction.length = 0 ∨ transaction.length ≥ maxTransactionLength
      · simp only [if_pos size, dif_pos size]
        exact ⟨memory, rfl, holds⟩
      by_cases full : pool.transactions.length ≥ mempoolCapacity
      · simp only [if_neg size, dif_neg size, holds.counted, if_pos full, dif_pos full]
        exact ⟨memory, rfl, holds⟩
      have inside : memory.count < mempoolCapacity := by
        rw [holds.counted]
        omega
      have short : transaction.length < maxTransactionLength := by omega
      obtain ⟨copied, written⟩ := copyInto_ok memory inside short
      refine ⟨{ copied with count := memory.count + 1 }, ?_, ?_⟩
      · simp only [if_neg size, dif_neg size, dif_neg full, if_neg (Nat.not_le_of_lt inside), written]
        rfl
      · simp only [dif_neg size, dif_neg full]
        exact holds.append written
  | snapshot out maxCount =>
    cases out with
    | false => exact ⟨memory, rfl, holds⟩
    | true =>
      have least : (if memory.count < maxCount then memory.count else maxCount) = min pool.transactions.length maxCount := by
        rw [holds.counted]
        split <;> omega
      refine ⟨memory, ?_, holds⟩
      have taken := holds.snapshot (Nat.min_le_left pool.transactions.length maxCount)
      rw [Nat.min_comm, ← List.take_eq_take_min, Nat.min_comm] at taken
      simp only [PoolMemory.call, Mempool.call, least, taken]
      rfl
  | removeIncluded included =>
    cases included with
    | none => exact ⟨memory, rfl, holds⟩
    | some included =>
      obtain ⟨after, removed, kept⟩ := removeLoop_holds included pool.transactions 0 holds pool.bounded
        (fun transaction member => (pool.sized transaction member).2)
      refine ⟨after, ?_, kept⟩
      simp only [PoolMemory.call, removed]
      rfl

/-- The memory after some calls holds what the calls make of the list. -/
theorem run_holds {memory : PoolMemory} {pool : Mempool} (holds : Holds memory pool.transactions)
    (calls : List PoolCall) : ∃ after final, memory.run calls = some after ∧ Holds after (final : Mempool).transactions := by
  induction calls generalizing memory pool with
  | nil => exact ⟨memory, pool, rfl, holds⟩
  | cons call rest ih =>
    obtain ⟨next, called, kept⟩ := call_holds holds call
    obtain ⟨after, final, ran, last⟩ := ih kept
    refine ⟨after, final, ?_, last⟩
    simpa only [PoolMemory.run, List.foldlM_cons, called, Option.map_some, Option.bind_eq_bind, Option.bind_some] using ran

/-- Whatever the calls and whatever the memory held before `mempool_init`, the
pool is a bounded list of short strings, and the next call does to it what it
has to. -/
theorem mempool_is_bounded_multiset (memory : PoolMemory) (calls : List PoolCall) :
    ∃ reached entries, memory.init.run calls = some reached ∧ reached.entries = some entries ∧
      reached.count = entries.length ∧ reached.count ≤ mempoolCapacity ∧
      (∀ entry ∈ entries, 1 ≤ entry.length ∧ entry.length ≤ 255) ∧
      ∀ call, ∃ reply next after, reached.call call = some (reply, next) ∧ next.entries = some after ∧
        CallSpec entries call reply after := by
  have empty : Holds memory.init mempoolInit.transactions := ⟨rfl, fun _ inside => absurd inside (Nat.not_lt_zero _)⟩
  obtain ⟨reached, pool, ran, holds⟩ := run_holds empty calls
  refine ⟨reached, pool.transactions, ran, holds.entries, holds.counted, holds.counted ▸ pool.bounded, ?_, ?_⟩
  · intro entry member
    have size := pool.sized entry member
    simp only [maxTransactionLength] at size
    omega
  · intro call
    obtain ⟨next, called, kept⟩ := call_holds holds call
    exact ⟨_, next, _, called, kept.entries, call_spec pool call⟩

end ProcessChain.Proofs.Pool
