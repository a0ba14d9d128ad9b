import ProcessChain.Block

/-! The table of child processes kept by the bootstrap process. -/

namespace ProcessChain

inductive ProcessType
  | node
  | miner
  | client
deriving DecidableEq

inductive ProcessState
  | running
  | paused
  | terminated
deriving DecidableEq

abbrev Pid := Int

structure ProcessEntry where
  type : ProcessType
  id : Nat
  pid : Pid
  state : ProcessState
deriving DecidableEq

def maxTrackedProcesses : Nat := 256

structure ProcessTable where
  entries : List ProcessEntry
  fits : entries.length ≤ maxTrackedProcesses

namespace ProcessTable

def count (table : ProcessTable) : Nat := table.entries.length

def pids (table : ProcessTable) : List Pid := table.entries.map ProcessEntry.pid

/-- The same processes in other states. -/
def withStates (table : ProcessTable) (entries : List ProcessEntry) (same : entries.length = table.entries.length) :
    ProcessTable :=
  ⟨entries, same ▸ table.fits⟩

end ProcessTable

def processTableInit : ProcessTable := ⟨[], Nat.zero_le _⟩

def processTableAdd (table : ProcessTable) (type : ProcessType) (id : Nat) (pid : Pid) : Except ProjectError ProcessTable :=
  if room : table.count < maxTrackedProcesses then
    .ok ⟨table.entries ++ [⟨type, id, pid, .running⟩], by
      rw [List.length_append]
      exact room⟩
  else .error .memoryAllocation

/-- The position of the first entry with this pid. -/
def processTableFindByPid (table : ProcessTable) (pid : Pid) : Option Nat :=
  table.entries.findIdx? fun entry => entry.pid == pid

end ProcessChain
