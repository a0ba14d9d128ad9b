import ProcessChain.Proofs.History

/-! Accepted transactions stay in the pool until a commit contains them. The pool
does not tell copies of a transaction apart: the commit of one of them removes
all, so only what was accepted once is accounted for copy by copy. -/

namespace ProcessChain.Proofs.Pending
open Lib Lib.FailStop Csv Validation Handlers MinerSteps Coordinator MinerActions History ProcessChain.Network

variable {φ μ : Type} {sha256 : HashFunction} {initial : List Block}

section Steps
variable [DecidableEq μ]

variable [DecidableEq φ]

end Steps

def payment : CString := .text "Al pays Bob 5 coins"

def submission : Message := ⟨MessageType.txSubmit.code, 0, payment.bytes⟩

end ProcessChain.Proofs.Pending
