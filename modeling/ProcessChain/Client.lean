import ProcessChain.Bootstrap
import ProcessChain.Validation
import ProcessChain.Protocol
import Mathlib.Data.List.Sort

/-! A client process. It makes up payments and hands each to the miners whose sockets
it finds in the runtime directory, one after the other, until one of them answers.
The results of `rand` and the entries of the directory are given from outside, and so
is what becomes of a connection. -/

namespace ProcessChain

def clientNameCount : Nat := 12

def clientNames : Vector CString clientNameCount :=
  ⟨#[.text "Alice", .text "Bob", .text "Charlie", .text "Dave", .text "Eve", .text "Frank", .text "Grace", .text "Heidi",
    .text "Ivan", .text "Judy", .text "Mallory", .text "Oscar"], rfl⟩

/-- `rand() % CLIENT_NAME_COUNT` -/
def drawName (draw : Nat) : Fin clientNameCount := ⟨draw % clientNameCount, Nat.mod_lt _ (by decide)⟩

/-- The `do` loop; `none` still needs a draw. -/
def drawReceiver (sender : Fin clientNameCount) : List Nat → Option (Fin clientNameCount × List Nat)
  | [] => none
  | draw :: rest => if drawName draw = sender then drawReceiver sender rest else some (drawName draw, rest)

/-- `"%s pays %s %u coins"` -/
def paymentText (sender receiver : CString) (amount : Nat) : CString :=
  .ofMemory (sender.bytes ++ ascii " pays " ++ receiver.bytes ++ ascii " " ++ decimal amount ++ ascii " coins")

/-- The draws are the results of `rand` from here on; `none` where they do not suffice. -/
def generateTransaction (draws : List Nat) : Option (Except ProjectError CString) :=
  match draws with
  | [] => none
  | first :: rest =>
    match drawReceiver (drawName first) rest with
    | none | some (_, []) => none
    | some (receiver, last :: _) =>
      let amount := 1 + last % 1000
      let transaction := paymentText clientNames[drawName first] clientNames[receiver] amount
      some (if transaction.length ≥ maxTransactionLength then .error .invalidArgument else .ok transaction)

def maxDiscoveredMiners : Nat := 256

/-- The `int` that `sscanf` stores for `%d`: the result of `strtol`, which saturates, without its upper half. -/
def Numeral.toInt (number : Numeral) : Int :=
  let value : Int := if number.negative then -number.magnitude else number.magnitude
  Int.bmod (max (-longMax - 1) (min longMax value)) (2 ^ 32)

/-- A name that `"miner_%d.sock%n"` reads to its end, with a number that is not negative. -/
def minerIdOf (name : CString) : Option Nat := do
  let text ← afterWord (ascii "miner_") name.bytes
  let number ← scanNumeral 10 text
  if number.rest = ascii ".sock" ∧ 0 ≤ number.toInt then some number.toInt.toNat else none

/-- The loop over the entries of the directory. -/
def collectMiners : List CString → List Nat → List Nat
  | [], minerIds => minerIds
  | name :: rest, minerIds =>
    match minerIdOf name with
    | some minerId => collectMiners rest (if minerIds.length < maxDiscoveredMiners then minerIds ++ [minerId] else minerIds)
    | none => collectMiners rest minerIds

/-- `none` is a directory that cannot be opened. Equal numbers cannot be told apart, so
any way to sort gives the same. -/
def discoverMiners (directory : Option (List CString)) (closed : Bool) : Except ProjectError (List Nat) :=
  match directory with
  | none => .error .fileOpen
  | some entries => if closed then .ok ((collectMiners entries []).insertionSort (· ≤ ·)) else .error .fileOpen

def maxSocketPathLen : Nat := 108

/-- `MINER_SOCK_FORMAT` -/
def minerSocketName (id : Nat) : CString := .ofMemory (ascii "miner_" ++ decimal id ++ ascii ".sock")

/-- The path for a name that the format has given; the sizes of both buffers are the limit. -/
def ipcBuildSocketPath (runtimeDir name : CString) : Except ProjectError CString :=
  let path := runtimeDir ++ .text "/" ++ name
  if name.length ≥ maxSocketPathLen ∨ path.length ≥ maxSocketPathLen then .error .invalidArgument else .ok path

/-- What `send_transaction_to_miner` makes of a response. -/
def readAck (response : Message) : Except ProjectError Unit :=
  if !response.has .txAck then .error .serialization
  else if response.payload = ascii "OK" then .ok () else .error .invalidTransaction

/-- `submit_transaction` between two connections. -/
inductive Submitting
  | idle
  | submitting (transaction : CString) (minerIds : List Nat) (start attempt : Nat)

structure Client where
  clientId : Nat
  transactionFrequency : Nat
  runtimeDir : CString
  nextMiner : Nat
  submission : Submitting

namespace Client

/-- A client at the beginning of its main loop. -/
def start (clientId transactionFrequency : Nat) (runtimeDir : CString) : Client :=
  ⟨clientId, transactionFrequency, runtimeDir, 0, .idle⟩

/-- One iteration of the main loop up to the first connection. Where it ends before, the client is as it was. -/
def generate (client : Client) (draws : List Nat) (directory : Option (List CString)) (closed : Bool) : Client :=
  match client.submission with
  | .submitting .. => client
  | .idle =>
    if client.transactionFrequency = 0 then client
    else
      match generateTransaction draws with
      | none | some (.error _) => client
      | some (.ok transaction) =>
        match discoverMiners directory closed with
        | .error _ | .ok [] => client
        | .ok minerIds =>
          { client with submission := .submitting transaction minerIds (client.nextMiner % minerIds.length) 0 }

/-- The miner whose turn it is. -/
def target (client : Client) : Option Nat :=
  match client.submission with
  | .idle => none
  | .submitting _ minerIds start attempt => minerIds[(start + attempt) % minerIds.length]?

/-- A miner that has answered decides, whatever it said. -/
def answered : Except ProjectError Unit → Bool
  | .ok _ | .error .invalidTransaction => true
  | .error _ => false

/-- The rest of a turn of the loop, with the result of `send_transaction_to_miner`. -/
def contacted (client : Client) (result : Except ProjectError Unit) : Client :=
  match client.submission with
  | .idle => client
  | .submitting transaction minerIds start attempt =>
    if answered result then
      { client with nextMiner := (start + attempt) % minerIds.length + 1, submission := .idle }
    else if attempt + 1 < minerIds.length then
      { client with submission := .submitting transaction minerIds start (attempt + 1) }
    else { client with nextMiner := start + 1, submission := .idle }

end Client

/-- What a client does next; `replies` is what every miner would answer to it at this moment. -/
inductive ClientEvent
  | generate (draws : List Nat) (directory : Option (List CString)) (closed : Bool)
  | contact (replies : Nat → Except ProjectError Unit)

namespace Client

/-- The miner that has answered, if one has, and the client afterwards. -/
def step (client : Client) : ClientEvent → Option Nat × Client
  | .generate draws directory closed => (none, client.generate draws directory closed)
  | .contact replies =>
    match client.target with
    | none => (none, client)
    | some minerId => (if answered (replies minerId) then some minerId else none, client.contacted (replies minerId))

end Client
end ProcessChain
