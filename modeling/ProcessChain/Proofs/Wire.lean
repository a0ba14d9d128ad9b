import ProcessChain.Wire
import ProcessChain.Proofs.Storage

/-! Messages survive every way of splitting their transfer. Both loops are
followed by how many bytes are still to move: an interruption leaves that number
as it is, and every other return of the kernel makes it smaller. -/

namespace ProcessChain.Proofs.Wire
open Lib Storage

/-- The kernel reports no error. -/
def Smooth (transfers : List Transfer) : Prop := ∀ transfer ∈ transfers, transfer ≠ .failed

def isMove : Transfer → Bool
  | .moved _ _ => true
  | _ => false

/-- How often the kernel moves something. -/
def moves (transfers : List Transfer) : Nat := transfers.countP isMove

/-- A transfer of `size` bytes ends with `value` and leaves `stream`. It may still
be waiting, but only if the kernel has moved something less than `size` times. -/
def Completes {α : Type} (result : Transferred α) (transfers : List Transfer) (size : Nat) (value : α)
    (stream : Bytes) : Prop :=
  (∃ left, result = .done value ⟨stream, left⟩ ∧ Smooth left ∧ moves transfers ≤ moves left + size) ∨
    (result = .waiting ∧ moves transfers < size)

theorem Completes.andThen {α β : Type} {first : Transferred α} {next : α → Connection → Transferred β}
    {transfers : List Transfer} {size more : Nat} {value : α} {final : β} {middle stream : Bytes}
    (start : Completes first transfers size value middle)
    (rest : ∀ left, Smooth left → Completes (next value ⟨middle, left⟩) left more final stream) :
    Completes (first.andThen next) transfers (size + more) final stream := by
  rcases start with finished | pending
  · obtain ⟨left, rfl, smooth, count⟩ := finished
    rcases rest left smooth with finished | pending
    · obtain ⟨later, result, smooth, further⟩ := finished
      exact Or.inl ⟨later, result, smooth, by omega⟩
    · exact Or.inr ⟨pending.1, by omega⟩
  · obtain ⟨rfl, few⟩ := pending
    exact Or.inr ⟨rfl, by omega⟩

private theorem smooth_tail {transfer : Transfer} {rest : List Transfer} (smooth : Smooth (transfer :: rest)) :
    Smooth rest :=
  fun other member => smooth other (List.mem_cons_of_mem _ member)

private theorem Completes.move {α : Type} {result : Transferred α} {count : Nat} {positive : 0 < count}
    {rest : List Transfer} {n further : Nat} {value : α} {stream : Bytes} (some : 0 < n)
    (next : Completes result rest further value stream) :
    Completes result (.moved count positive :: rest) (n + further) value stream := by
  have once : moves (.moved count positive :: rest) = moves rest + 1 := List.countP_cons_of_pos rfl
  rcases next with finished | pending
  · obtain ⟨later, result, calm, moved⟩ := finished
    exact Or.inl ⟨later, result, calm, by omega⟩
  · exact Or.inr ⟨pending.1, by omega⟩

private theorem Completes.interrupt {α : Type} {result : Transferred α} {rest : List Transfer} {size : Nat} {value : α}
    {stream : Bytes} (next : Completes result rest size value stream) :
    Completes result (.interrupted :: rest) size value stream := by
  have same : moves (.interrupted :: rest) = moves rest := List.countP_cons_of_neg (by simp [isMove])
  rwa [Completes, same]

private theorem readLoop_completes {len missing : Nat} {transfers : List Transfer} (received stream : Bytes)
    (smooth : Smooth transfers) (sized : received.length + missing = len) (enough : missing ≤ stream.length) :
    Completes (readLoop len received stream transfers) transfers missing (received ++ stream.take missing)
      (stream.drop missing) := by
  induction transfers generalizing received stream missing with
  | nil =>
    simp only [readLoop]
    split
    next more => exact Or.inr ⟨rfl, by simp only [moves, List.countP_nil]; omega⟩
    next full =>
      obtain rfl : missing = 0 := by omega
      exact Or.inl ⟨[], by simp, smooth, by simp [moves]⟩
  | cons transfer rest ih =>
    simp only [readLoop]
    split
    next more =>
      cases transfer with
      | interrupted =>
        exact (ih received stream (smooth_tail smooth) sized enough).interrupt
      | failed => exact absurd rfl (smooth .failed (by simp))
      | moved count positive =>
        simp only
        -- the amount moved is positive and at most what is missing
        generalize amount : min count (min (len - received.length) stream.length) = n
        obtain ⟨further, rfl⟩ : ∃ further, missing = n + further := ⟨missing - n, by omega⟩
        have moved : (received ++ stream.take n).length + further = len := by
          simp only [List.length_append, List.length_take]
          omega
        have left : further ≤ (stream.drop n).length := by
          rw [List.length_drop]
          omega
        have next := ih (received ++ stream.take n) (stream.drop n) (smooth_tail smooth) moved left
        rw [if_neg (by omega), List.take_add, ← List.append_assoc, ← List.drop_drop]
        exact next.move (by omega)
    next full =>
      obtain rfl : missing = 0 := by omega
      exact Or.inl ⟨transfer :: rest, by simp, smooth, by simp⟩

theorem readFull_completes {bytes rest : Bytes} {transfers : List Transfer} (smooth : Smooth transfers) :
    Completes (readFull bytes.length ⟨bytes ++ rest, transfers⟩) transfers bytes.length bytes rest := by
  have completes := readLoop_completes [] (bytes ++ rest) smooth (Nat.zero_add bytes.length) (by simp)
  simpa [readFull] using completes

private theorem readLoop_done {len : Nat} {received stream bytes : Bytes} {transfers : List Transfer}
    {connection : Connection} (short : received.length ≤ len)
    (result : readLoop len received stream transfers = .done bytes connection) :
    bytes.length = len ∧ received ++ stream = bytes ++ connection.stream := by
  induction transfers generalizing received stream with
  | nil =>
    simp only [readLoop] at result
    split at result
    · cases result
    · cases result
      exact ⟨by omega, rfl⟩
  | cons transfer rest ih =>
    simp only [readLoop] at result
    split at result
    next more =>
      cases transfer with
      | interrupted => exact ih short result
      | failed => cases result
      | moved count positive =>
        simp only at result
        split at result
        · cases result
        · have next := ih (by simp only [List.length_append, List.length_take]; omega) result
          rwa [List.append_assoc, List.take_append_drop] at next
    next full =>
      cases result
      exact ⟨by omega, rfl⟩

/-- Whatever the kernel does, a finished read has taken exactly the next bytes. -/
theorem readFull_done {len : Nat} {connection later : Connection} {bytes : Bytes}
    (result : readFull len connection = .done bytes later) :
    bytes.length = len ∧ connection.stream = bytes ++ later.stream :=
  readLoop_done (Nat.zero_le len) result

private theorem writeLoop_completes {buffer : Bytes} {transfers : List Transfer} (done : Nat) (stream : Bytes)
    (smooth : Smooth transfers) (short : done ≤ buffer.length) :
    Completes (writeLoop buffer done stream transfers) transfers (buffer.length - done) ()
      (stream ++ buffer.drop done) := by
  induction transfers generalizing stream done with
  | nil =>
    simp only [writeLoop]
    split
    next more => exact Or.inr ⟨rfl, by simp only [moves, List.countP_nil]; omega⟩
    next full =>
      obtain rfl : done = buffer.length := by omega
      exact Or.inl ⟨[], by simp, smooth, by simp [moves]⟩
  | cons transfer rest ih =>
    simp only [writeLoop]
    split
    next more =>
      cases transfer with
      | interrupted =>
        exact (ih done stream (smooth_tail smooth) short).interrupt
      | failed => exact absurd rfl (smooth .failed (by simp))
      | moved count positive =>
        simp only
        generalize amount : min count (buffer.length - done) = n
        have next := ih (done + n) (stream ++ (buffer.drop done).take n) (smooth_tail smooth) (by omega)
        rw [List.append_assoc, ← List.drop_drop, List.take_append_drop] at next
        have size : buffer.length - done = n + (buffer.length - (done + n)) := by omega
        rw [size]
        exact next.move (by omega)
    next full =>
      obtain rfl : done = buffer.length := by omega
      exact Or.inl ⟨transfer :: rest, by simp, smooth, by simp⟩

theorem writeFull_completes {buffer stream : Bytes} {transfers : List Transfer} (smooth : Smooth transfers) :
    Completes (writeFull buffer ⟨stream, transfers⟩) transfers buffer.length () (stream ++ buffer) := by
  have completes := writeLoop_completes 0 stream smooth (Nat.zero_le buffer.length)
  simpa [writeFull] using completes

variable (order : ByteOrder)

@[simp] theorem store_length (width value : Nat) : (order.store width value).length = width := by
  cases order <;> simp [ByteOrder.store, ByteOrder.arrange]

theorem load_store {width value : Nat} (small : value < 256 ^ width) : order.load (order.store width value) = value := by
  have bytes : (fixedDigits 256 width value).map (fun digit => digit % 256) = fixedDigits 256 width value := by
    apply (List.map_congr_left (g := id) ?_).trans (List.map_id _)
    intro digit member
    exact Nat.mod_eq_of_lt (fixedDigits_lt (by decide) width value digit member)
  have number := numeral_fixedDigits 256 width value
  rw [Nat.mod_eq_of_lt small] at number
  cases order with
  | little => simp [ByteOrder.load, ByteOrder.store, ByteOrder.arrange, Function.comp_def, bytes, number]
  | big => simp [ByteOrder.load, ByteOrder.store, ByteOrder.arrange, Function.comp_def, bytes, number]

@[simp] theorem toMemory_length (header : MessageHeader) : (header.toMemory order).length = sizeofHeader := by
  simp [MessageHeader.toMemory, sizeofHeader]

theorem ofMemory_toMemory (header : MessageHeader) : MessageHeader.ofMemory order (header.toMemory order) = header := by
  have word : ∀ value : UInt32, order.load (order.store 4 value.toNat) = value.toNat :=
    fun value => load_store order value.toNat_lt
  have half : ∀ value : UInt16, order.load (order.store 2 value.toNat) = value.toNat :=
    fun value => load_store order value.toNat_lt
  cases header
  simp [MessageHeader.ofMemory, MessageHeader.toMemory, List.drop_append, List.drop_eq_nil_of_le,
    List.take_of_length_le, word, half]

def headerOf (message : Message) : MessageHeader :=
  ⟨protocolMagic, protocolVersion, message.type, message.senderId, message.payload.length.toUInt32⟩

/-- The bytes of one message. -/
def frame (message : Message) : Bytes := (headerOf message).toMemory order ++ message.payload

def Fits (message : Message) : Prop := message.payload.length ≤ maxPayloadSize

theorem payloadLen_length {message : Message} (fits : Fits message) :
    message.payload.length.toUInt32.toNat = message.payload.length := by
  simp only [Fits, maxPayloadSize] at fits
  simp only [Nat.toUInt32_eq, UInt32.toNat_ofNat']
  omega

variable {transfers : List Transfer}

theorem ipcSend_completes (type : UInt16) (senderId : UInt32) {payload : Bytes} {payloadLen : UInt32}
    (within : payloadLen.toNat ≤ payload.length) (small : payloadLen.toNat ≤ maxPayloadSize) (smooth : Smooth transfers)
    (stream : Bytes) :
    Completes (ProcessChain.Wire.ipcSend order type senderId (some payload) payloadLen ⟨stream, transfers⟩) transfers
      (frame order ⟨type, senderId, payload.take payloadLen.toNat⟩).length ()
      (stream ++ frame order ⟨type, senderId, payload.take payloadLen.toNat⟩) := by
  have accepted : ¬ (payloadLen.toNat > maxPayloadSize ∨ (payloadLen.toNat > 0 ∧ some payload = none)) := by
    simp only [reduceCtorEq, and_false, or_false]
    exact Nat.not_lt.mpr small
  have header : headerOf ⟨type, senderId, payload.take payloadLen.toNat⟩ =
      ⟨protocolMagic, protocolVersion, type, senderId, payloadLen⟩ := by
    simp only [headerOf, List.length_take, Nat.min_eq_left within, Nat.toUInt32_eq, UInt32.ofNat_toNat]
  simp only [ProcessChain.Wire.ipcSend, accepted, if_false]
  rw [frame, header, List.length_append, ← List.append_assoc]
  apply (writeFull_completes smooth).andThen
  intro left calm
  split
  · exact writeFull_completes calm
  next none =>
    have zero : payloadLen.toNat = 0 := by omega
    exact Or.inl ⟨left, by simp [zero], calm, by simp⟩

/-- What the handlers' `ipc_send` delivers is what it puts on the stream. -/
theorem ipcSend_delivers {type : MessageType} {senderId : UInt32} {payload : Bytes} {length : Nat} {message : Message}
    (sent : ProcessChain.ipcSend type senderId payload length = some message) (within : length ≤ payload.length)
    (smooth : Smooth transfers) (stream : Bytes) :
    Completes (ProcessChain.Wire.ipcSend order type.code senderId (some payload) length.toUInt32 ⟨stream, transfers⟩)
      transfers (frame order message).length () (stream ++ frame order message) := by
  have narrowed : length.toUInt32.toNat = length % 2 ^ 32 := by simp
  simp only [ProcessChain.ipcSend] at sent
  split at sent
  · cases sent
  next small =>
    have shorter : length.toUInt32.toNat ≤ payload.length := by
      have narrow := Nat.mod_le length (2 ^ 32)
      omega
    have bounded : length.toUInt32.toNat ≤ maxPayloadSize := by omega
    have completes := ipcSend_completes order type.code senderId shorter bounded smooth stream
    rw [narrowed] at completes
    cases sent
    exact completes

theorem sendAll_completes {messages : List Message} (fit : ∀ message ∈ messages, Fits message)
    (smooth : Smooth transfers) (stream : Bytes) :
    Completes (ProcessChain.Wire.sendAll order messages ⟨stream, transfers⟩) transfers
      (messages.flatMap (frame order)).length () (stream ++ messages.flatMap (frame order)) := by
  induction messages generalizing stream transfers with
  | nil => exact Or.inl ⟨transfers, by simp [ProcessChain.Wire.sendAll], smooth, by simp⟩
  | cons message rest ih =>
    rw [List.flatMap_cons, List.length_append, ← List.append_assoc]
    have fits : Fits message := fit message (by simp)
    have length := payloadLen_length fits
    have start := ipcSend_completes order message.type message.senderId (Nat.le_of_eq length) (length.trans_le fits) smooth
      stream
    rw [length, List.take_length] at start
    apply start.andThen
    intro left calm
    exact ih (fun message member => fit message (by simp [member])) calm _

/-- What a successful `ipc_recv` has found on the stream and what it leaves there. -/
structure Framed (stream : Bytes) (message : Message) (rest : Bytes) : Prop where
  header : sizeofHeader ≤ stream.length
  magic : (MessageHeader.ofMemory order (stream.take sizeofHeader)).magic = protocolMagic
  version : (MessageHeader.ofMemory order (stream.take sizeofHeader)).version = protocolVersion
  length : (MessageHeader.ofMemory order (stream.take sizeofHeader)).payloadLen.toNat = message.payload.length
  bounded : message.payload.length ≤ maxPayloadSize
  whole : stream = stream.take sizeofHeader ++ message.payload ++ rest

/-- The header of a message that is next on the stream. -/
private theorem header_completes {connection : Connection} {message : Message} {rest : Bytes}
    (next : connection.stream = frame order message ++ rest) (smooth : Smooth connection.transfers) :
    Completes (readFull sizeofHeader connection) connection.transfers sizeofHeader
      ((headerOf message).toMemory order) (message.payload ++ rest) := by
  obtain ⟨stream, transfers⟩ := connection
  simp only [frame, List.append_assoc] at next
  subst next
  have completes : Completes (readFull ((headerOf message).toMemory order).length
      ⟨(headerOf message).toMemory order ++ (message.payload ++ rest), transfers⟩) transfers _
      ((headerOf message).toMemory order) (message.payload ++ rest) := readFull_completes smooth
  rwa [toMemory_length] at completes

theorem ipcRecv_ensures (connection : Connection) :
    Ensures (ProcessChain.Wire.ipcRecv order connection)
      (fun result => ∀ message later, result = .done message later → Framed order connection.stream message later.stream)
      fun result => ∀ message rest, connection.stream = frame order message ++ rest → Fits message →
        Smooth connection.transfers →
        Completes result connection.transfers (frame order message).length message rest := by
  unfold ProcessChain.Wire.ipcRecv
  cases read : readFull sizeofHeader connection with
  | waiting =>
    refine .pure (by simp) ?_
    intro message rest next fits smooth
    have header := header_completes order next smooth
    simp only [read, Completes, reduceCtorEq, false_and, exists_false, true_and, false_or] at header
    exact Or.inr ⟨rfl, by rw [frame, List.length_append, toMemory_length]; omega⟩
  | failed error later =>
    refine .pure (by simp) ?_
    intro message rest next fits smooth
    have header := header_completes order next smooth
    simp [read, Completes] at header
  | done memory later =>
    obtain ⟨long, split⟩ := readFull_done read
    obtain ⟨remaining, left⟩ := later
    have front : connection.stream.take sizeofHeader = memory := by rw [split, ← long, List.take_left]
    -- a message that is next on the stream has announced itself correctly
    have announced : ∀ message rest, connection.stream = frame order message ++ rest → Smooth connection.transfers →
        MessageHeader.ofMemory order memory = headerOf message ∧ remaining = message.payload ++ rest ∧
          Smooth left ∧ moves connection.transfers ≤ moves left + sizeofHeader := by
      intro message rest next smooth
      have header := header_completes order next smooth
      simp only [read, Completes, reduceCtorEq, false_and, or_false, Transferred.done.injEq, Connection.mk.injEq] at header
      obtain ⟨_, ⟨rfl, rfl, rfl⟩, calm, count⟩ := header
      exact ⟨ofMemory_toMemory order _, rfl, calm, count⟩
    simp only
    split
    next wrong =>
      refine .pure (by simp) ?_
      intro message rest next fits smooth
      rw [(announced message rest next smooth).1] at wrong
      simp [headerOf] at wrong
    next right =>
      rw [not_or, not_not, not_not] at right
      split
      next large =>
        refine .pure (by simp) ?_
        intro message rest next fits smooth
        rw [(announced message rest next smooth).1, headerOf, payloadLen_length fits] at large
        exact absurd fits (Nat.not_le.mpr large)
      next small =>
        split
        next some =>
          apply (malloc_ensures _).bind
          intro enough _
          cases enough with
          | false => exact .pure (by simp) (by simp)
          | true =>
            refine .pure ?_ ?_
            · intro message last result
              cases found : readFull (MessageHeader.ofMemory order memory).payloadLen.toNat ⟨remaining, left⟩ with
              | waiting => simp [found, Transferred.andThen] at result
              | failed error connection => simp [found, Transferred.andThen] at result
              | done payload connection =>
                obtain ⟨size, whole⟩ := readFull_done found
                rw [found] at result
                cases result
                exact ⟨by rw [split, List.length_append]; omega, by rw [front, right.1], by rw [front, right.2],
                  by rw [front, size], by rw [size]; omega,
                  by rw [front, split, List.append_assoc]; exact congrArg _ whole⟩
            · intro _ message rest next fits smooth
              obtain ⟨header, rfl, calm, count⟩ := announced message rest next smooth
              rw [header]
              simp only [headerOf, payloadLen_length fits]
              rcases readFull_completes calm with finished | pending
              · obtain ⟨last, result, calm, more⟩ := finished
                refine Or.inl ⟨last, by rw [result]; rfl, calm, ?_⟩
                rw [frame, List.length_append, toMemory_length]
                omega
              · refine Or.inr ⟨by rw [pending.1]; rfl, ?_⟩
                rw [frame, List.length_append, toMemory_length]
                omega
        next none =>
          have zero : (MessageHeader.ofMemory order memory).payloadLen.toNat = 0 := by omega
          refine .pure ?_ ?_
          · intro message last result
            cases result
            exact ⟨by rw [split, List.length_append]; omega, by rw [front, right.1], by rw [front, right.2],
              by rw [front, zero, List.length_nil], Nat.zero_le _, by rw [front, List.append_nil, ← split]⟩
          · intro message rest next fits smooth
            obtain ⟨header, rfl, calm, count⟩ := announced message rest next smooth
            rw [header, headerOf, payloadLen_length fits] at zero
            have empty := List.eq_nil_of_length_eq_zero zero
            obtain ⟨type, senderId, payload⟩ := message
            simp only at empty
            subst empty
            refine Or.inl ⟨left, by rw [header]; rfl, calm, ?_⟩
            rw [frame, List.length_append, toMemory_length]
            omega

theorem recvAll_ensures (first : List Message) (connection : Connection) :
    Ensures (ProcessChain.Wire.recvAll order first.length connection) (fun _ => True)
      fun result => ∀ rest, connection.stream = first.flatMap (frame order) ++ rest → (∀ message ∈ first, Fits message) →
        Smooth connection.transfers →
        Completes result connection.transfers (first.flatMap (frame order)).length first rest := by
  induction first generalizing connection with
  | nil =>
    refine .pure trivial ?_
    intro rest next _ smooth
    obtain ⟨stream, transfers⟩ := connection
    simp only [List.flatMap_nil, List.nil_append] at next
    exact Or.inl ⟨transfers, by rw [next], smooth, by simp⟩
  | cons message others ih =>
    apply (ipcRecv_ensures order connection).bind
    intro result _
    have step : ∀ rest, connection.stream = (message :: others).flatMap (frame order) ++ rest →
        connection.stream = frame order message ++ (others.flatMap (frame order) ++ rest) := by
      intro rest next
      rw [next, List.flatMap_cons, List.append_assoc]
    cases result with
    | waiting =>
      refine .pure trivial ?_
      intro received rest next fit smooth
      have one := received message _ (step rest next) (fit message (by simp)) smooth
      simp only [Completes, reduceCtorEq, false_and, exists_false, true_and, false_or] at one
      refine Or.inr ⟨rfl, ?_⟩
      rw [List.flatMap_cons, List.length_append]
      omega
    | failed error later =>
      refine .pure trivial ?_
      intro received rest next fit smooth
      have one := received message _ (step rest next) (fit message (by simp)) smooth
      simp [Completes] at one
    | done received later =>
      apply (ih later).bind
      intro result _
      refine .pure trivial ?_
      intro remaining ready rest next fit smooth
      have one := ready message _ (step rest next) (fit message (by simp)) smooth
      simp only [Completes, reduceCtorEq, false_and, or_false, Transferred.done.injEq] at one
      obtain ⟨left, ⟨rfl, rfl⟩, calm, count⟩ := one
      have all : Completes result left (others.flatMap (frame order)).length others rest :=
        remaining rest rfl (fun message member => fit message (by simp [member])) calm
      rw [List.flatMap_cons, List.length_append]
      rcases all with finished | pending
      · obtain ⟨last, rfl, calm, more⟩ := finished
        exact Or.inl ⟨last, rfl, calm, by omega⟩
      · obtain ⟨rfl, few⟩ := pending
        exact Or.inr ⟨rfl, by omega⟩

/-- Messages sent one after the other are received one after the other, whatever
parts the kernel moves and however often it interrupts: a call that does not
return waits for the kernel, and each one that returns leaves the stream at the
start of the next message. Nothing else on a stream is taken for a message. -/
theorem message_framing (messages : List Message) (fit : ∀ message ∈ messages, Fits message) (writes reads : List Transfer)
    (smoothWrites : Smooth writes) (smoothReads : Smooth reads) :
    Completes (ProcessChain.Wire.sendAll order messages ⟨[], writes⟩) writes (messages.flatMap (frame order)).length ()
        (messages.flatMap (frame order)) ∧
      (∀ first later heap, messages = first ++ later →
        (ProcessChain.Wire.recvAll order first.length ⟨messages.flatMap (frame order), reads⟩ heap).2.refused = false →
        Completes (ProcessChain.Wire.recvAll order first.length ⟨messages.flatMap (frame order), reads⟩ heap).1 reads
          (first.flatMap (frame order)).length first (later.flatMap (frame order))) ∧
      ∀ connection heap message rest,
        (ProcessChain.Wire.ipcRecv order connection heap).1 = .done message rest →
        Framed order connection.stream message rest.stream := by
  refine ⟨sendAll_completes order fit smoothWrites [], ?_, ?_⟩
  · intro first later heap split granted
    subst split
    obtain ⟨_, received⟩ := (recvAll_ensures order first _).granted heap granted
    exact received _ (List.flatMap_append ..) (fun message member => fit message (by simp [member])) smoothReads
  · intro connection heap message rest result
    exact (ipcRecv_ensures order connection).always heap message rest result

def hello : Message := ⟨1, 7, ascii "Alice pays Bob 10 coins"⟩

/-- Two messages that are moved byte by byte. -/
theorem hello_received :
    ∃ left, (ProcessChain.Wire.recvAll .little 2
      ⟨[hello, hello].flatMap (frame .little), List.replicate 78 (.moved 1 Nat.one_pos)⟩ ⟨[], false⟩).1 =
        .done [hello, hello] ⟨[], left⟩ := by
  have single : Smooth (List.replicate 78 (.moved 1 Nat.one_pos)) := by simp [Smooth]
  have fits : hello.payload.length ≤ maxPayloadSize := by decide
  have framing := message_framing .little [hello, hello] (by simp [Fits, fits]) [] _ (by simp [Smooth]) single
  rcases framing.2.1 [hello, hello] [] ⟨[], false⟩ rfl (by decide +kernel) with finished | pending
  · obtain ⟨left, result, _, _⟩ := finished
    exact ⟨left, result⟩
  · exact absurd pending.2 (by decide +kernel)

end ProcessChain.Proofs.Wire
