import ProcessChain.Network

/-! A commit handler that is behind sends its request and reads the reply on one connection.
The network delivers any reply to it; here it is known what each reply was asked for. -/

namespace ProcessChain
open Lib Lib.FailStop

/-- The index that the coordinator reads in a sync request. -/
def requestedIndex (message : Message) : UInt64 := (scanUnsigned (CString.ofMemory message.payload).bytes).getD 0

/-- Each new sync reply with the index that the request for it has named. -/
def answered {φ μ : Type} (replies : List Bytes) : Action φ μ → List (UInt64 × Bytes)
  | .toCoordinator message _ => replies.map fun payload => (requestedIndex message, payload)
  | _ => []

structure ConnectedNetwork (φ μ : Type) where
  network : Network φ μ
  /-- The sync replies, each with the index that it was asked for. -/
  answers : List (UInt64 × Bytes)

namespace ConnectedNetwork

variable {φ μ : Type} [DecidableEq φ] [DecidableEq μ] (sha256 : HashFunction)

def step (system : ConnectedNetwork φ μ) (action : Action φ μ) : ConnectedNetwork φ μ :=
  let after := system.network.step sha256 action
  ⟨after, system.answers ++ answered (after.syncReplies.drop system.network.syncReplies.length) action⟩

def run (system : ConnectedNetwork φ μ) (actions : List (Action φ μ)) : ConnectedNetwork φ μ :=
  actions.foldl (step sha256) system

omit [DecidableEq φ] [DecidableEq μ] in
def start (network : Network φ μ) : ConnectedNetwork φ μ := ⟨network, []⟩

theorem run_network (system : ConnectedNetwork φ μ) (actions : List (Action φ μ)) :
    (system.run sha256 actions).network = system.network.run sha256 actions := by
  induction actions generalizing system with
  | nil => rfl
  | cons action rest ih => exact ih (system.step sha256 action)

end ConnectedNetwork
end ProcessChain
