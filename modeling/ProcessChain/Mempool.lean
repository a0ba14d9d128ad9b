import ProcessChain.Block

/-! The pool of pending transactions. Its slots have a fixed size, so everything
in the pool is a transaction that fits in a block. -/

namespace ProcessChain

def mempoolCapacity : Nat := 256

structure Mempool where
  transactions : List CString
  bounded : transactions.length ≤ mempoolCapacity
  sized : ∀ transaction ∈ transactions, 0 < transaction.length ∧ transaction.length < maxTransactionLength

def mempoolInit : Mempool := ⟨[], by simp, by simp⟩

def mempoolAdd (pool : Mempool) (transaction : CString) : Except ProjectError Mempool :=
  if short : transaction.length = 0 ∨ transaction.length ≥ maxTransactionLength then .error .invalidTransaction
  else if room : pool.transactions.length ≥ mempoolCapacity then .error .invalidBlock
  else .ok ⟨pool.transactions ++ [transaction], by
      simp only [List.length_append, List.length_singleton]
      omega, by
      intro member inside
      rcases List.mem_append.mp inside with earlier | new
      · exact pool.sized member earlier
      · rw [List.mem_singleton.mp new]
        omega⟩

/-- The oldest slots, at most `maxCount` of them; nothing is removed. -/
def mempoolSnapshot (pool : Mempool) (maxCount : Nat) : List CString := pool.transactions.take maxCount

/-- The last transaction is moved into the slot, which is then looked at again. -/
def dropSlot (transactions : List CString) (slot : Nat) (inside : slot < transactions.length) : List CString :=
  (transactions.set slot (transactions.getLast (List.ne_nil_of_length_pos (by omega)))).dropLast

theorem dropSlot_length (transactions : List CString) (slot : Nat) (inside : slot < transactions.length) :
    (dropSlot transactions slot inside).length = transactions.length - 1 := by
  simp [dropSlot]

/-- The loop of `mempool_remove_included` from slot `index` on. -/
def removeLoop (included transactions : List CString) (index : Nat) : List CString :=
  if inside : index < transactions.length then
    if transactions[index] ∈ included then removeLoop included (dropSlot transactions index inside) index
    else removeLoop included transactions (index + 1)
  else transactions
termination_by transactions.length - index
decreasing_by
  · rw [dropSlot_length]
    omega
  · omega

theorem dropSlot_subset (transactions : List CString) (slot : Nat) (inside : slot < transactions.length) :
    ∀ transaction ∈ dropSlot transactions slot inside, transaction ∈ transactions := by
  intro transaction member
  rcases List.mem_or_eq_of_mem_set (List.mem_of_mem_dropLast member) with earlier | rfl
  · exact earlier
  · exact List.getLast_mem _

theorem removeLoop_subset (included transactions : List CString) (index : Nat) :
    (removeLoop included transactions index).length ≤ transactions.length ∧
      ∀ transaction ∈ removeLoop included transactions index, transaction ∈ transactions := by
  fun_induction removeLoop included transactions index with
  | case1 transactions index inside matched ih =>
    rw [dropSlot_length] at ih
    exact ⟨by omega, fun transaction member => dropSlot_subset transactions index inside transaction (ih.2 transaction member)⟩
  | case2 transactions index inside other ih => exact ih
  | case3 transactions index done => exact ⟨Nat.le_refl _, fun _ member => member⟩

def mempoolRemoveIncluded (pool : Mempool) (included : List CString) : Mempool :=
  ⟨removeLoop included pool.transactions 0,
    Nat.le_trans (removeLoop_subset included pool.transactions 0).1 pool.bounded,
    fun transaction member => pool.sized transaction ((removeLoop_subset included pool.transactions 0).2 transaction member)⟩

end ProcessChain
