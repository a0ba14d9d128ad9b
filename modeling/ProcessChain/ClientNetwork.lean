import ProcessChain.Client
import ProcessChain.Network

/-! The running system with its clients. Between two connections of a client anything
may happen to the nodes, the miners and the other clients. What the clients make up,
what the miners take from them and what the clients log as accepted is recorded for the
statements about whole runs. -/

namespace ProcessChain
open Lib Lib.FailStop

/-- The functions for connections never return `ERR_INVALID_TRANSACTION`. -/
abbrev ConnectionError := { error : ProjectError // error ≠ .invalidTransaction }

/-- What becomes of the connection to a miner. -/
inductive Fate
  /-- The miner does not get the whole request. -/
  | unsent (error : ConnectionError)
  /-- The miner handles the request; its reply arrives if there is no failure. -/
  | handled (failure : Option ConnectionError) (heap : Heap)

variable {φ μ κ : Type}

structure ClientNetwork (φ μ κ : Type) where
  network : Network φ μ
  clients : κ → Client
  /-- Payments made up for a submission. -/
  generated : List (κ × CString)
  /-- Requests of clients that a miner has answered "OK", whether or not the answer has arrived. -/
  taken : List (κ × μ × CString)
  /-- "transaction accepted by miner" in the log of a client. -/
  accepted : List (κ × μ × CString)

inductive ClientAction (φ μ κ : Type)
  | network (action : Action φ μ)
  | generate (client : κ) (draws : List Nat) (directory : Option (List CString)) (closed : Bool)
  | contact (client : κ) (fate : Fate)

namespace ClientNetwork

section Clients
variable [DecidableEq κ]

def setClient (system : ClientNetwork φ μ κ) (client : κ) (state : Client) : ClientNetwork φ μ κ :=
  { system with clients := Function.update system.clients client state }

@[simp] theorem setClient_self (system : ClientNetwork φ μ κ) (client : κ) (state : Client) :
    (system.setClient client state).clients client = state := Function.update_self ..

@[simp] theorem setClient_taken (system : ClientNetwork φ μ κ) (client : κ) (state : Client) :
    (system.setClient client state).taken = system.taken := rfl

theorem setClient_of_ne (system : ClientNetwork φ μ κ) {client other : κ} (different : other ≠ client) (state : Client) :
    (system.setClient client state).clients other = system.clients other := Function.update_of_ne different ..

def generate (system : ClientNetwork φ μ κ) (client : κ) (draws : List Nat) (directory : Option (List CString))
    (closed : Bool) : ClientNetwork φ μ κ :=
  let state := (system.clients client).generate draws directory closed
  let generated := match (system.clients client).submission, state.submission with
    | .idle, .submitting transaction .. => [(client, transaction)]
    | _, _ => []
  { system.setClient client state with generated := system.generated ++ generated }

end Clients

variable [DecidableEq φ] [DecidableEq μ] [DecidableEq κ] (sha256 : HashFunction)

/-- `MSG_TX_SUBMIT` with the characters of the transaction. -/
def txSubmit (client : Client) (transaction : CString) : Option Message :=
  ipcSend .txSubmit client.clientId.toUInt32 transaction.bytes transaction.length

/-- What `send_transaction_to_miner` returns after the request was sent. -/
def receiveAck (failure : Option ConnectionError) (reply : Option Message) : Except ProjectError Unit :=
  match failure, reply with
  | some error, _ => .error error.val
  | none, some response => readAck response
  | none, none => .error .ipc

/-- The request waits while the miner is at an earlier message. -/
def submit (system : ClientNetwork φ μ κ) (client : κ) (miner : μ) (transaction : CString) (failure : Option ConnectionError)
    (heap : Heap) : ClientNetwork φ μ κ :=
  match txSubmit (system.clients client) transaction with
  | none => system.setClient client ((system.clients client).contacted (.error .invalidArgument))
  | some message =>
    match (system.network.miners miner).communication with
    | .idle =>
      let reply := ((system.network.miners miner).handleMessage sha256 message heap).1.2
      let result := receiveAck failure reply
      { system.setClient client ((system.clients client).contacted result) with
        network := system.network.step sha256 (.toMiner miner message heap)
        taken := system.taken ++ if reply.map Message.payload = some (ascii "OK") then [(client, miner, transaction)] else []
        accepted := system.accepted ++ if result.isOk then [(client, miner, transaction)] else [] }
    | _ => system

/-- The miner that listens on the socket with a number, if one does. -/
abbrev Listeners (μ : Type) := Nat → Option μ

variable (listener : Listeners μ)

/-- One call of `send_transaction_to_miner`. -/
def contact (system : ClientNetwork φ μ κ) (client : κ) (fate : Fate) : ClientNetwork φ μ κ :=
  let state := system.clients client
  match state.submission, state.target with
  | .submitting transaction .., some minerId =>
    match ipcBuildSocketPath state.runtimeDir (minerSocketName minerId), listener minerId, fate with
    | .error error, _, _ => system.setClient client (state.contacted (.error error))
    | .ok _, none, _ => system.setClient client (state.contacted (.error .ipc))
    | .ok _, some _, .unsent error => system.setClient client (state.contacted (.error error.val))
    | .ok _, some miner, .handled failure heap => system.submit sha256 client miner transaction failure heap
  | _, _ => system

def step (system : ClientNetwork φ μ κ) : ClientAction φ μ κ → ClientNetwork φ μ κ
  | .network action => { system with network := system.network.step sha256 action }
  | .generate client draws directory closed => system.generate client draws directory closed
  | .contact client fate => system.contact sha256 listener client fate

def run (system : ClientNetwork φ μ κ) (actions : List (ClientAction φ μ κ)) : ClientNetwork φ μ κ :=
  actions.foldl (step sha256 listener) system

/-- Every client has just been started, and so has every other process. -/
def start (network : Network φ μ) (clients : κ → Client) : ClientNetwork φ μ κ := ⟨network, clients, [], [], []⟩

end ClientNetwork
end ProcessChain
