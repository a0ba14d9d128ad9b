import ProcessChain.ClientNetwork
import ProcessChain.Proofs.Payments
import ProcessChain.Proofs.Pending
import ProcessChain.Proofs.Provenance
import ProcessChain.Proofs.Submission

/-! From a client to the chain. A client logs a payment as accepted only where a miner
has taken it, no miner takes a payment more often than it was made up, and where nobody
else submits and proposes the chains hold nothing but such payments. -/

namespace ProcessChain.Proofs.Delivery
open Lib Lib.FailStop Validation Handlers Submission Payments Coordinator MinerActions History Provenance Repetition
  ProcessChain.Client ProcessChain.ClientNetwork

section Requests

/-- What a miner does with a transaction and what its reply means to the client. -/
inductive Reply (miner : Miner) (transaction : CString) (heap : Heap) : Miner × Option Message → Prop
  | taken {mempool : Mempool} {response : Message} (accepted : Accepted transaction heap) (room : HasRoom miner)
      (grown : mempool.transactions = miner.mempool.transactions ++ [transaction]) (text : response.payload = ascii "OK")
      (ack : readAck response = .ok ()) : Reply miner transaction heap ({ miner with mempool }, some response)
  | turnedDown {response : Message} (barred : ¬ (Accepted transaction heap ∧ HasRoom miner))
      (text : response.payload ≠ ascii "OK") (ack : readAck response = .error .invalidTransaction) :
      Reply miner transaction heap (miner, some response)

private theorem ipcSend_has {type : MessageType} {sender : UInt32} {payload : Bytes} {length : Nat} {message : Message}
    (sent : ipcSend type sender payload length = some message) : message.has type = true := by
  rw [ipcSend] at sent
  split at sent
  · cases sent
  · cases sent
    simp [Message.has, MessageType.ofCode_code]

private theorem submit_acks (miner : Miner) (payload : Bytes) (heap : Heap) :
    ∀ response ∈ (handleTxSubmit miner payload heap).1.2, response.has .txAck = true := by
  unfold handleTxSubmit
  simp only [bind, StateT.bind]
  obtain ⟨result, later⟩ := attempt (validateTransaction (submittedTransaction payload)) heap
  cases result with
  | error error => exact fun response sent => ipcSend_has sent
  | ok done =>
    dsimp only
    cases mempoolAdd miner.mempool (submittedTransaction payload) with
    | error error => exact fun response sent => ipcSend_has sent
    | ok mempool =>
      intro response sent
      have literal : ipcSendText .txAck miner.sender "OK" 2 = some response := sent
      exact ipcSend_has literal

theorem submit_reply (miner : Miner) {transaction : CString} (valid : ValidTransaction transaction) (heap : Heap) :
    Reply miner transaction heap (handleTxSubmit miner transaction.bytes heap).1 := by
  have fits : FitsBuffer transaction.bytes := ⟨valid.short, transaction.terminated⟩
  have whole : submittedTransaction transaction.bytes = transaction := CString.ext (submitted_whole fits)
  have outcome := submit_outcome miner transaction.bytes heap
  have acks := submit_acks miner transaction.bytes heap
  rw [whole] at outcome
  generalize (handleTxSubmit miner transaction.bytes heap).1 = final at outcome acks
  cases outcome with
  | added accepted room grown answer =>
    obtain ⟨response, rfl, text⟩ := Option.map_eq_some_iff.mp answer
    exact .taken accepted room grown text (by simp [readAck, acks response rfl, text])
  | refused error barred =>
    have told := submitError_text miner error
    have other := error_not_ok told
    obtain ⟨response, same, _⟩ := told
    rw [Option.mem_def] at same
    simp only [same, Option.map_some, ne_eq, Option.some.injEq] at other acks ⊢
    exact .turnedDown barred other (by simp [readAck, acks response rfl, other])

private theorem handle_submit (sha256 : HashFunction) {miner : Miner} (idle : miner.communication = .idle) (sender : UInt32)
    (payload : Bytes) (heap : Heap) :
    miner.handleMessage sha256 ⟨MessageType.txSubmit.code, sender, payload⟩ heap = handleTxSubmit miner payload heap := by
  simp [Miner.handleMessage, idle, MessageType.ofCode_code]

end Requests

section Connections

variable {φ μ κ : Type} [DecidableEq φ] [DecidableEq μ] [DecidableEq κ] {sha256 : HashFunction} {listener : Listeners μ}

/-- The client has come to a certain miner with a certain payment. -/
structure Asks (listener : Listeners μ) (client : Client) (m : μ) (transaction : CString) : Prop where
  submitting : ∃ minerIds start attempt, client.submission = .submitting transaction minerIds start attempt
  turn : ∃ minerId, client.target = some minerId ∧ listener minerId = some m

/-- A request that a miner handles. Only the miner, the client and the records change. -/
inductive Handled (sha256 : HashFunction) (system : ClientNetwork φ μ κ) (c : κ) (m : μ) (transaction : CString)
    (failure : Option ConnectionError) (heap : Heap) : ClientNetwork φ μ κ → Prop
  | taken {network : Network φ μ} {message : Message} (accepted : Accepted transaction heap)
      (room : HasRoom (system.network.miners m)) (moved : network = system.network.step sha256 (.toMiner m message heap))
      (acknowledged : network.acknowledged =
        Function.update system.network.acknowledged m (system.network.acknowledged m ++ [transaction]))
      (grown : (network.miners m).mempool.transactions = (system.network.miners m).mempool.transactions ++ [transaction]) :
      Handled sha256 system c m transaction failure heap
        { system.setClient c ((system.clients c).contacted (match failure with
            | none => .ok ()
            | some error => .error error.val)) with
          network
          taken := system.taken ++ [(c, m, transaction)]
          accepted := system.accepted ++ if failure.isNone then [(c, m, transaction)] else [] }
  | turnedDown {network : Network φ μ} {message : Message} (barred : ¬ (Accepted transaction heap ∧ HasRoom (system.network.miners m)))
      (moved : network = system.network.step sha256 (.toMiner m message heap))
      (acknowledged : network.acknowledged = system.network.acknowledged)
      (kept : network.miners m = system.network.miners m) :
      Handled sha256 system c m transaction failure heap
        { system.setClient c ((system.clients c).contacted (match failure with
            | none => .error .invalidTransaction
            | some error => .error error.val)) with network }

/-- A payment is short enough for a message, and the miner reads the whole of it. -/
private theorem request_whole (client : Client) {transaction : CString} (payment : Payment transaction) :
    txSubmit client transaction = some ⟨MessageType.txSubmit.code, client.clientId.toUInt32, transaction.bytes⟩ ∧
      submittedTransaction transaction.bytes = transaction := by
  have fits : FitsBuffer transaction.bytes := ⟨payment.valid.short, transaction.terminated⟩
  have short : transaction.bytes.length ≤ maxPayloadSize := Nat.le_trans (Nat.le_of_lt fits.short) (by decide)
  exact ⟨ipcSend_fits .txSubmit _ short, CString.ext (submitted_whole fits)⟩

/-- What the network makes of a request. -/
private theorem tell_request (sha256 : HashFunction) {network : Network φ μ} {m : μ} (idle : (network.miners m).communication = .idle) (sender : UInt32)
    {transaction : CString} (whole : submittedTransaction transaction.bytes = transaction) (heap : Heap) :
    let after := network.step sha256 (.toMiner m ⟨MessageType.txSubmit.code, sender, transaction.bytes⟩ heap)
    let handled := (handleTxSubmit (network.miners m) transaction.bytes heap).1
    after.miners m = handled.1 ∧ after.acknowledged = Function.update network.acknowledged m (network.acknowledged m ++
      if handled.2.map Message.payload = some (ascii "OK") then [transaction] else []) := by
  have noCommit (payload : Bytes) : (Message.mk MessageType.txSubmit.code sender payload).has .blockCommit = false := rfl
  have handled := handle_submit sha256 idle sender transaction.bytes heap
  simp [Network.step, Network.tell, Network.setMiner, noCommit, handled, whole]

theorem submit_handled (system : ClientNetwork φ μ κ) (c : κ) {m : μ} {transaction : CString} (payment : Payment transaction)
    (idle : (system.network.miners m).communication = .idle) (failure : Option ConnectionError) (heap : Heap) :
    Handled sha256 system c m transaction failure heap (system.submit sha256 c m transaction failure heap) := by
  obtain ⟨sent, whole⟩ := request_whole (system.clients c) payment
  have reply := submit_reply (system.network.miners m) payment.valid heap
  have handled := handle_submit sha256 idle (system.clients c).clientId.toUInt32 transaction.bytes heap
  have told := tell_request sha256 idle (system.clients c).clientId.toUInt32 whole heap
  simp only [ClientNetwork.submit, sent, idle, handled]
  generalize (handleTxSubmit (system.network.miners m) transaction.bytes heap).1 = outcome at reply told ⊢
  cases reply with
  | taken accepted room grown text ack =>
    obtain ⟨state, acknowledged⟩ := told
    rw [Option.map_some, text, if_pos rfl] at acknowledged
    have pool := (congrArg (fun miner => miner.mempool.transactions) state).trans grown
    have taken : Handled sha256 system c m transaction failure heap _ := .taken accepted room rfl acknowledged pool
    rw [Option.map_some, text, if_pos rfl]
    cases failure with
    | none => simpa [receiveAck, ack, Except.isOk, Except.toBool] using taken
    | some error => simpa [receiveAck, Except.isOk, Except.toBool] using taken
  | turnedDown barred text ack =>
    obtain ⟨state, acknowledged⟩ := told
    rw [Option.map_some, if_neg fun same => text (Option.some.inj same), List.append_nil, Function.update_eq_self] at acknowledged
    have turnedDown : Handled sha256 system c m transaction failure heap _ := .turnedDown barred rfl acknowledged state
    rw [Option.map_some, if_neg fun same => text (Option.some.inj same), List.append_nil]
    cases failure with
    | none => simpa [receiveAck, ack, Except.isOk, Except.toBool, setClient] using turnedDown
    | some error => simpa [receiveAck, Except.isOk, Except.toBool, setClient] using turnedDown

private theorem socketPath_error {runtimeDir name : CString} {error : ProjectError}
    (failed : ipcBuildSocketPath runtimeDir name = .error error) : error ≠ .invalidTransaction := by
  rw [ipcBuildSocketPath] at failed
  split at failed
  · cases failed
    decide
  · cases failed

/-- What one call of `send_transaction_to_miner` can come to. -/
inductive Contacted (sha256 : HashFunction) (listener : Listeners μ) (system : ClientNetwork φ μ κ) (c : κ) :
    ClientNetwork φ μ κ → Prop
  | waits : Contacted sha256 listener system c system
  | fails (error : ConnectionError) :
      Contacted sha256 listener system c (system.setClient c ((system.clients c).contacted (.error error.val)))
  | handled {m : μ} {transaction : CString} {failure : Option ConnectionError} {heap : Heap} {after : ClientNetwork φ μ κ}
      (asks : Asks listener (system.clients c) m transaction) (handled : Handled sha256 system c m transaction failure heap after) :
      Contacted sha256 listener system c after

theorem contact_contacted (system : ClientNetwork φ μ κ) (c : κ) (fate : Fate)
    (payments : ∀ transaction minerIds start attempt,
      (system.clients c).submission = .submitting transaction minerIds start attempt → Payment transaction) :
    Contacted sha256 listener system c (system.contact sha256 listener c fate) := by
  unfold ClientNetwork.contact
  dsimp only
  split
  next transaction minerIds start attempt minerId phase turn =>
    cases path : ipcBuildSocketPath (system.clients c).runtimeDir (minerSocketName minerId) with
    | error error => exact .fails ⟨error, socketPath_error path⟩
    | ok socketPath =>
      cases listens : listener minerId with
      | none => exact .fails ⟨.ipc, by decide⟩
      | some m =>
        cases fate with
        | unsent error => exact .fails error
        | handled failure heap =>
          have payment := payments _ _ _ _ phase
          cases busy : (system.network.miners m).communication with
          | idle =>
            exact .handled ⟨⟨minerIds, start, attempt, phase⟩, minerId, turn, listens⟩ (submit_handled system c payment busy failure heap)
          | _ =>
            simp only [ClientNetwork.submit, (request_whole (system.clients c) payment).1, busy]
            exact .waits
  · exact .waits

end Connections

section Records

variable {φ μ κ : Type} {sha256 : HashFunction} {listener : Listeners μ}

/-- The miners that a client may still ask to take this payment. -/
def ahead (listener : Listeners μ) (client : Client) (transaction : CString) : List μ :=
  match client.submission with
  | .idle => []
  | .submitting current minerIds began attempt =>
    if current = transaction then ((minerIds.rotate began).drop attempt).filterMap listener else []

/-- The loop has not passed the end of the list. -/
def Inside (client : Client) : Prop :=
  ∀ transaction minerIds began attempt, client.submission = .submitting transaction minerIds began attempt → attempt < minerIds.length

theorem Inside.contacted {client : Client} (inside : Inside client) (result : Except ProjectError Unit) :
    Inside (client.contacted result) := by
  unfold Client.contacted
  split
  · exact inside
  next transaction minerIds began attempt phase =>
    split
    · simp [Inside]
    · split
      next further =>
        intro _ _ _ _ same
        cases same
        exact further
      · simp [Inside]

private theorem remaining_next {client : Client} {transaction : CString} {minerIds : List Nat} {began attempt minerId : Nat}
    (inside : attempt < minerIds.length) (phase : client.submission = .submitting transaction minerIds began attempt)
    (turn : client.target = some minerId) :
    (minerIds.rotate began).drop attempt = minerId :: (minerIds.rotate began).drop (attempt + 1) := by
  have within : attempt < (minerIds.rotate began).length := by rwa [List.length_rotate]
  rw [List.drop_eq_getElem_cons within, List.getElem_rotate]
  simp only [target, phase, Nat.add_comm began] at turn
  rw [(List.getElem?_eq_some_iff.mp turn).2]

/-- Nobody comes back: after a connection the client may ask fewer miners. -/
theorem ahead_contacted (listener : Listeners μ) (client : Client) (result : Except ProjectError Unit) (transaction : CString) :
    (ahead listener (client.contacted result) transaction).Sublist (ahead listener client transaction) := by
  unfold Client.contacted
  split
  · exact List.Sublist.refl _
  next current minerIds began attempt phase =>
    split
    · exact List.nil_sublist _
    · split
      · simp only [ahead, phase]
        split
        · exact (List.drop_sublist_drop_left _ (Nat.le_succ attempt)).filterMap _
        · exact List.nil_sublist _
      · exact List.nil_sublist _

/-- The miner that was asked is not ahead any more. -/
theorem ahead_asked {client : Client} (inside : Inside client) {m : μ} {transaction : CString}
    (asks : Asks listener client m transaction) (result : Except ProjectError Unit) :
    (m :: ahead listener (client.contacted result) transaction).Sublist (ahead listener client transaction) := by
  obtain ⟨⟨minerIds, began, attempt, phase⟩, minerId, turn, listens⟩ := asks
  have next := remaining_next (inside _ _ _ _ phase) phase turn
  have before : ahead listener client transaction = m :: ((minerIds.rotate began).drop (attempt + 1)).filterMap listener := by
    simp only [ahead, phase, if_pos, next, List.filterMap_cons, listens]
  rw [before]
  refine List.Sublist.cons_cons m ?_
  unfold Client.contacted
  simp only [phase]
  split
  · exact List.nil_sublist _
  · split
    · simp [ahead]
    · exact List.nil_sublist _

section Iterations
variable [DecidableEq κ]

/-- An iteration of a client's main loop, with its record. -/
inductive Begun (system : ClientNetwork φ μ κ) (c : κ) (draws : List Nat) (directory : Option (List CString)) (closed : Bool) :
    ClientNetwork φ μ κ → Prop
  | kept : Begun system c draws directory closed system
  | submits {transaction : CString} {minerIds : List Nat} (idle : (system.clients c).submission = .idle)
      (payment : Payment transaction) (discovered : discoverMiners directory closed = .ok minerIds) (positive : 0 < minerIds.length) :
      Begun system c draws directory closed
        { system.setClient c { system.clients c with
            submission := .submitting transaction minerIds ((system.clients c).nextMiner % minerIds.length) 0 } with
          generated := system.generated ++ [(c, transaction)] }

theorem generate_begun (system : ClientNetwork φ μ κ) (c : κ) (draws : List Nat) (directory : Option (List CString)) (closed : Bool) :
    Begun system c draws directory closed (system.generate c draws directory closed) := by
  have began := generate_iteration (system.clients c) draws directory closed
  unfold ClientNetwork.generate
  generalize (system.clients c).generate draws directory closed = after at began ⊢
  cases began with
  | kept =>
    have same : system.setClient c (system.clients c) = system := by
      simp [ClientNetwork.setClient]
    cases phase : (system.clients c).submission with
    | idle => simpa [same, phase] using (Begun.kept : Begun system c draws directory closed system)
    | submitting => simpa [same, phase] using (Begun.kept : Begun system c draws directory closed system)
  | submits idle generated discovered positive =>
    obtain ⟨transaction, same, payment⟩ := generated_payment generated
    cases same
    simp only [idle]
    exact .submits idle payment discovered positive

end Iterations

variable [DecidableEq μ]

/-- What a miner has taken from the clients, in order. -/
def takenBy (m : μ) (taken : List (κ × μ × CString)) : List CString :=
  (taken.filter fun entry => entry.2.1 = m).map fun entry => entry.2.2

/-- What the records say about each other and about the state. -/
structure Faithful (system : ClientNetwork φ μ κ) : Prop where
  generated : ∀ c transaction, (c, transaction) ∈ system.generated → Payment transaction
  submitting : ∀ c transaction minerIds began attempt,
    (system.clients c).submission = .submitting transaction minerIds began attempt → (c, transaction) ∈ system.generated
  taken : ∀ c m transaction, (c, m, transaction) ∈ system.taken → (c, transaction) ∈ system.generated
  logged : system.accepted.Sublist system.taken
  acknowledged : ∀ m, (takenBy m system.taken).Sublist (system.network.acknowledged m)

/-- What the clients and the records become when a client comes out of a call. -/
private theorem contacted_submitting {client : Client} {result : Except ProjectError Unit} {transaction : CString}
    {minerIds : List Nat} {began attempt : Nat}
    (phase : (client.contacted result).submission = .submitting transaction minerIds began attempt) :
    ∃ earlier, client.submission = .submitting transaction minerIds began earlier := by
  unfold Client.contacted at phase
  split at phase
  next idle =>
    rw [idle] at phase
    cases phase
  next current listed first earlier same =>
    split at phase
    · cases phase
    · split at phase
      · cases phase
        exact ⟨earlier, same⟩
      · cases phase

variable [DecidableEq κ]

private theorem Faithful.setClient {system : ClientNetwork φ μ κ} (faithful : Faithful system) (c : κ)
    (result : Except ProjectError Unit) : Faithful (system.setClient c ((system.clients c).contacted result)) := by
  refine ⟨faithful.generated, ?_, faithful.taken, faithful.logged, faithful.acknowledged⟩
  intro other transaction minerIds began attempt phase
  by_cases this : other = c
  · subst this
    rw [setClient_self] at phase
    obtain ⟨earlier, before⟩ := contacted_submitting phase
    exact faithful.submitting _ _ _ _ _ before
  · rw [setClient_of_ne system this] at phase
    exact faithful.submitting _ _ _ _ _ phase

variable [DecidableEq φ]

/-- What one step can come to. -/
inductive Moved (sha256 : HashFunction) (listener : Listeners μ) (system : ClientNetwork φ μ κ) :
    ClientAction φ μ κ → ClientNetwork φ μ κ → Prop
  | network (action : Action φ μ) :
      Moved sha256 listener system (.network action) { system with network := system.network.step sha256 action }
  | begun {c : κ} {draws : List Nat} {directory : Option (List CString)} {closed : Bool} {after : ClientNetwork φ μ κ}
      (begun : Begun system c draws directory closed after) : Moved sha256 listener system (.generate c draws directory closed) after
  | told {c : κ} {fate : Fate} {after : ClientNetwork φ μ κ} (told : Contacted sha256 listener system c after) :
      Moved sha256 listener system (.contact c fate) after

theorem Faithful.moved {system : ClientNetwork φ μ κ} (faithful : Faithful system) (action : ClientAction φ μ κ) :
    Moved sha256 listener system action (system.step sha256 listener action) := by
  match action with
  | .network action => exact .network action
  | .generate c draws directory closed => exact .begun (generate_begun system c draws directory closed)
  | .contact c fate =>
    exact .told (contact_contacted system c fate fun transaction _ _ _ phase =>
      faithful.generated c transaction (faithful.submitting c transaction _ _ _ phase))

private theorem Faithful.contacted {system after : ClientNetwork φ μ κ} (faithful : Faithful system) {c : κ}
    (told : Contacted sha256 listener system c after) : Faithful after := by
  cases told with
  | waits => exact faithful
  | fails error => exact faithful.setClient c _
  | @handled m transaction failure heap _ asks handled =>
    obtain ⟨minerIds, began, attempt, phase⟩ := asks.submitting
    have own := faithful.submitting c transaction minerIds began attempt phase
    cases handled with
    | taken accepted room moved acknowledged grown =>
      have called := faithful.setClient c (match failure with
        | none => .ok ()
        | some error => .error error.val)
      refine ⟨called.generated, called.submitting, ?_, ?_, ?_⟩
      · intro other miner payment member
        rcases List.mem_append.mp member with old | new
        · exact faithful.taken other miner payment old
        · cases List.mem_singleton.mp new
          exact own
      · refine faithful.logged.append ?_
        split
        · exact List.Sublist.refl _
        · exact List.nil_sublist _
      · intro miner
        have before := faithful.acknowledged miner
        simp only [takenBy, List.filter_append, List.map_append, acknowledged] at before ⊢
        by_cases this : miner = m
        · subst this
          simpa using before.append (List.Sublist.refl [transaction])
        · have other : m ≠ miner := fun same => this same.symm
          simpa [Function.update_of_ne this, other] using before
    | turnedDown barred moved acknowledged kept =>
      have called := faithful.setClient c (match failure with
        | none => .error .invalidTransaction
        | some error => .error error.val)
      refine ⟨called.generated, called.submitting, called.taken, called.logged, fun miner => ?_⟩
      rw [acknowledged]
      exact faithful.acknowledged miner

theorem Faithful.step {system : ClientNetwork φ μ κ} (authority : Authority sha256 system.network) (faithful : Faithful system)
    (action : ClientAction φ μ κ) : Faithful (system.step sha256 listener action) := by
  have moved : Moved sha256 listener system action _ := faithful.moved action
  generalize system.step sha256 listener action = after at moved ⊢
  cases moved with
  | network action =>
    exact ⟨faithful.generated, faithful.submitting, faithful.taken, faithful.logged, fun m =>
      (faithful.acknowledged m).trans (acknowledged_grows authority action m).sublist⟩
  | @begun c draws directory closed _ begun =>
    cases begun with
    | kept => exact faithful
    | @submits transaction minerIds idle payment discovered positive =>
      refine ⟨?_, ?_, ?_, faithful.logged, faithful.acknowledged⟩
      · intro other made member
        rcases List.mem_append.mp member with old | new
        · exact faithful.generated other made old
        · cases List.mem_singleton.mp new
          exact payment
      · intro other made listed began attempt phase
        by_cases this : other = c
        · subst this
          simp only [setClient_self] at phase
          cases phase
          exact List.mem_append_right _ List.mem_cons_self
        · simp only [setClient_of_ne system this] at phase
          exact List.mem_append_left _ (faithful.submitting other made listed began attempt phase)
      · exact fun other m made member => List.mem_append_left _ (faithful.taken other m made member)
  | told told => exact faithful.contacted told

/-- No miner takes a payment from a client more often than the client has made it up. -/
structure Counted (listener : Listeners μ) (system : ClientNetwork φ μ κ) : Prop where
  inside : ∀ c, Inside (system.clients c)
  counted : ∀ c m transaction, system.taken.count (c, m, transaction) + (ahead listener (system.clients c) transaction).count m ≤
    system.generated.count (c, transaction)

/-- The directory shows a client every miner once. -/
def Lists (listener : Listeners μ) : ClientAction φ μ κ → Prop
  | .generate _ _ directory closed =>
    ∀ minerIds, discoverMiners directory closed = .ok minerIds → (minerIds.filterMap listener).Nodup
  | _ => True

omit [DecidableEq φ] in
private theorem Counted.begin {system after : ClientNetwork φ μ κ} (counted : Counted listener system) {c : κ} {draws : List Nat}
    {directory : Option (List CString)} {closed : Bool} (begun : Begun system c draws directory closed after)
    (lists : ∀ minerIds, discoverMiners directory closed = .ok minerIds → (minerIds.filterMap listener).Nodup) :
    Counted listener after := by
  cases begun with
  | kept => exact counted
  | @submits transaction minerIds idle payment discovered positive =>
    refine ⟨fun other => ?_, fun other m made => ?_⟩
    · by_cases this : other = c
      · subst this
        simp only [setClient_self]
        intro _ _ _ _ same
        cases same
        exact positive
      · simp only [setClient_of_ne system this]
        exact counted.inside other
    · have before := counted.counted other m made
      rw [List.count_append]
      by_cases this : other = c
      · subst this
        simp only [setClient_self, setClient_taken, ahead, List.drop_zero]
        by_cases own : transaction = made
        · subst own
          have none : ahead listener (system.clients other) transaction = [] := by
            simp only [ahead, idle]
          have rotated : ((minerIds.rotate ((system.clients other).nextMiner % minerIds.length)).filterMap listener).Nodup :=
            ((List.rotate_perm minerIds _).filterMap listener).nodup_iff.mpr (lists minerIds discovered)
          have once := List.nodup_iff_count_le_one.mp rotated m
          rw [none, List.count_nil] at before
          rw [if_pos rfl, List.count_singleton_self]
          omega
        · rw [if_neg own, List.count_nil]
          exact Nat.le_trans (Nat.le_of_add_right_le before) (Nat.le_add_right _ _)
      · simp only [setClient_of_ne system this]
        exact Nat.le_trans before (Nat.le_add_right _ _)

omit [DecidableEq φ] in
/-- A call after which the client has fewer miners ahead of it, and has been taken from at most by the one it has asked. -/
private theorem Counted.call {system after : ClientNetwork φ μ κ} (counted : Counted listener system) {c : κ}
    {result : Except ProjectError Unit} (clients : after.clients = Function.update system.clients c ((system.clients c).contacted result))
    (generated : after.generated = system.generated)
    (taken : after.taken = system.taken ∨ ∃ m transaction, Asks listener (system.clients c) m transaction ∧
      after.taken = system.taken ++ [(c, m, transaction)]) : Counted listener after := by
  refine ⟨fun other => ?_, fun other m made => ?_⟩
  · rw [clients]
    by_cases this : other = c
    · subst this
      rw [Function.update_self]
      exact (counted.inside other).contacted result
    · rw [Function.update_of_ne this]
      exact counted.inside other
  · have before := counted.counted other m made
    rw [clients, generated]
    by_cases this : other = c
    · subst this
      rw [Function.update_self]
      have fewer := (ahead_contacted listener (system.clients other) result made).count_le m
      rcases taken with same | ⟨miner, transaction, asks, more⟩
      · rw [same]
        omega
      · rw [more, List.count_append]
        by_cases own : (other, miner, transaction) = (other, m, made)
        · cases own
          have passed := (ahead_asked (counted.inside other) asks result).count_le m
          rw [List.count_cons_self] at passed
          rw [List.count_singleton_self]
          omega
        · rw [List.count_singleton, if_neg (by simpa using own)]
          omega
    · rw [Function.update_of_ne this]
      rcases taken with same | ⟨miner, transaction, _, more⟩
      · rwa [same]
      · have foreign : (other, m, made) ≠ (c, miner, transaction) := fun same => this (congrArg Prod.fst same)
        rwa [more, List.count_append, List.count_singleton, if_neg (by simpa using foreign.symm), Nat.add_zero]

theorem Counted.step {system : ClientNetwork φ μ κ} (faithful : Faithful system) (counted : Counted listener system)
    {action : ClientAction φ μ κ} (lists : Lists listener action) : Counted listener (system.step sha256 listener action) := by
  have moved : Moved sha256 listener system action _ := faithful.moved action
  generalize system.step sha256 listener action = after at moved ⊢
  cases moved with
  | network action => exact ⟨counted.inside, counted.counted⟩
  | begun begun => exact counted.begin begun lists
  | told told =>
    cases told with
    | waits => exact counted
    | fails error => exact counted.call rfl rfl (.inl rfl)
    | handled asks handled =>
      cases handled with
      | taken accepted room moved acknowledged grown => exact counted.call rfl rfl (.inr ⟨_, _, asks, rfl⟩)
      | turnedDown barred moved acknowledged kept => exact counted.call rfl rfl (.inl rfl)

/-- Nobody but the miners proposes blocks. -/
def minersPropose : ClientAction φ μ κ → Bool
  | .network action => onlyMiners action
  | _ => true

/-- What the clients do is, for the network, that requests reach miners. -/
theorem step_network (sha256 : HashFunction) (listener : Listeners μ) {system : ClientNetwork φ μ κ} (faithful : Faithful system)
    (action : ClientAction φ μ κ) :
    ∃ moves : List (Action φ μ), (system.step sha256 listener action).network = system.network.run sha256 moves ∧
      (minersPropose action = true → ∀ move ∈ moves, onlyMiners move = true) := by
  have still (fromMiners : Bool) : ∃ moves : List (Action φ μ), system.network = system.network.run sha256 moves ∧
      (fromMiners = true → ∀ move ∈ moves, onlyMiners move = true) := ⟨[], rfl, by simp⟩
  have moved : Moved sha256 listener system action _ := faithful.moved action
  generalize system.step sha256 listener action = after at moved ⊢
  cases moved with
  | network action => exact ⟨[action], rfl, fun fromMiners move member => List.mem_singleton.mp member ▸ fromMiners⟩
  | begun begun =>
    cases begun with
    | kept => exact still _
    | submits => exact still _
  | told told =>
    cases told with
    | waits => exact still _
    | fails error => exact still _
    | handled asks handled =>
      cases handled with
      | @taken network message accepted room moved acknowledged grown =>
        exact ⟨[.toMiner _ message _], moved, by simp [onlyMiners]⟩
      | @turnedDown network message barred moved acknowledged kept =>
        exact ⟨[.toMiner _ message _], moved, by simp [onlyMiners]⟩

/-- Nobody but the clients submits transactions. -/
def clientsSubmit : ClientAction φ μ κ → Bool
  | .network (.toMiner _ message _) => !message.has .txSubmit
  | _ => true

omit [DecidableEq κ] [DecidableEq φ] [DecidableEq μ] in
private theorem handleMessage_silent (miner : Miner) {message : Message} (other : message.has .txSubmit = false) :
    Always (miner.handleMessage sha256 message) fun outcome => outcome.2 = none := by
  unfold Miner.handleMessage
  split
  · split
    next type => simp [Message.has, type] at other
    · exact .bind fun _ => .pure rfl
    · exact .pure rfl
    · exact .pure rfl
    · exact .pure rfl
  · exact .pure rfl

omit [DecidableEq κ] in
private theorem acknowledged_kept (network : Network φ μ) {action : Action φ μ}
    (fromClients : clientsSubmit (ClientAction.network action : ClientAction φ μ κ) = true) :
    (network.step sha256 action).acknowledged = network.acknowledged := by
  cases action with
  | toMiner m message heap =>
    have other : message.has .txSubmit = false := by simpa [clientsSubmit] using fromClients
    have silent : ((network.miners m).handleMessage sha256 message heap).1.2 = none := handleMessage_silent _ other heap
    by_cases commit : message.has .blockCommit = true
    · rw [Network.step, if_pos commit]
    · rw [Network.step, if_neg commit]
      simp [Network.tell, Network.setMiner, silent]
  | toCoordinator | toFollower | deliverProposal | deliverCommit =>
    simp only [Network.step]
    split <;> rfl
  | deliverCommitToMiner m position heap =>
    simp only [Network.step, Network.tellCommit]
    split
    · split <;> rfl
    · rfl
  | query =>
    simp only [Network.step, Network.query]
    split <;> rfl
  | deliverSync | finishCommit | finishResync | startAttempt | buildAttempt | finishAttempt => rfl

/-- The miners have acknowledged to the clients only. -/
def Exclusive (system : ClientNetwork φ μ κ) : Prop := ∀ m, system.network.acknowledged m = takenBy m system.taken

omit [DecidableEq κ] [DecidableEq φ] in
private theorem takenBy_append (m miner : μ) (taken : List (κ × μ × CString)) (c : κ) (transaction : CString) :
    takenBy m (taken ++ [(c, miner, transaction)]) = takenBy m taken ++ if miner = m then [transaction] else [] := by
  simp only [takenBy, List.filter_append, List.map_append]
  by_cases this : miner = m <;> simp [this]

theorem Exclusive.step {system : ClientNetwork φ μ κ} (faithful : Faithful system) (exclusive : Exclusive system)
    {action : ClientAction φ μ κ} (fromClients : clientsSubmit action = true) :
    Exclusive (system.step sha256 listener action) := by
  have moved : Moved sha256 listener system action _ := faithful.moved action
  generalize system.step sha256 listener action = after at moved ⊢
  cases moved with
  | network action =>
    intro m
    rw [acknowledged_kept system.network fromClients]
    exact exclusive m
  | begun begun =>
    cases begun with
    | kept => exact exclusive
    | submits => exact exclusive
  | told told =>
    cases told with
    | waits => exact exclusive
    | fails error => exact exclusive
    | @handled miner transaction failure heap _ asks handled =>
      cases handled with
      | taken accepted room moved acknowledged grown =>
        intro m
        simp only [acknowledged, takenBy_append]
        by_cases this : m = miner
        · subst this
          rw [Function.update_self, if_pos rfl, exclusive m]
        · rw [Function.update_of_ne this, if_neg fun same => this same.symm, List.append_nil, exclusive m]
      | turnedDown barred moved acknowledged kept =>
        intro m
        simp only [acknowledged]
        exact exclusive m

end Records

section Runs

variable {φ μ κ : Type} [DecidableEq φ] [DecidableEq μ] [DecidableEq κ] {sha256 : HashFunction} {listener : Listeners μ}

/-- What holds along a run. -/
structure Going (sha256 : HashFunction) (system : ClientNetwork φ μ κ) : Prop where
  authority : Authority sha256 system.network
  faithful : Faithful system

theorem Going.step {system : ClientNetwork φ μ κ} (going : Going sha256 system) (action : ClientAction φ μ κ) :
    Going sha256 (system.step sha256 listener action) := by
  obtain ⟨moves, same, _⟩ := step_network sha256 listener going.faithful action
  refine ⟨?_, going.faithful.step going.authority action⟩
  rw [same]
  exact run_preserves (Authority sha256) (fun _ authority _ move => (step_authority authority move).1) going.authority going.authority moves

/-- A property that every permitted action keeps. -/
theorem run_keeps (keeps : ClientNetwork φ μ κ → Prop) (permitted : ClientAction φ μ κ → Prop)
    (step : ∀ system, Faithful system → keeps system → ∀ action, permitted action → keeps (system.step sha256 listener action))
    {system : ClientNetwork φ μ κ} (going : Going sha256 system) (initially : keeps system) {actions : List (ClientAction φ μ κ)}
    (each : ∀ action ∈ actions, permitted action) : keeps (system.run sha256 listener actions) := by
  induction actions generalizing system with
  | nil => exact initially
  | cons action rest ih =>
    exact ih (going.step action) (step system going.faithful initially action (each action List.mem_cons_self))
      fun other member => each other (List.mem_cons_of_mem _ member)

/-- The network of a run has made a run of its own. -/
theorem run_network (listener : Listeners μ) {system : ClientNetwork φ μ κ} (going : Going sha256 system) (actions : List (ClientAction φ μ κ)) :
    ∃ moves : List (Action φ μ), (system.run sha256 listener actions).network = system.network.run sha256 moves ∧
      ((∀ action ∈ actions, minersPropose action = true) → ∀ move ∈ moves, onlyMiners move = true) := by
  induction actions generalizing system with
  | nil => exact ⟨[], rfl, by simp⟩
  | cons action rest ih =>
    obtain ⟨first, same, own⟩ := step_network sha256 listener going.faithful action
    obtain ⟨later, next, others⟩ := ih (going.step action)
    refine ⟨first ++ later, ?_, fun each move member => ?_⟩
    · rw [ClientNetwork.run, List.foldl_cons, ← ClientNetwork.run, next, same, Network.run, Network.run, Network.run, List.foldl_append]
    · rcases List.mem_append.mp member with mine | yours
      · exact own (each action List.mem_cons_self) move mine
      · exact others (fun other later => each other (List.mem_cons_of_mem _ later)) move yours

end Runs

end ProcessChain.Proofs.Delivery
