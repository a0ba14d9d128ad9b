import ProcessChain.Sha256

/-! The vendored SHA-256 in its memory: a buffer with a fill level, arrays of words, and
loops that count in a `WORD` of 32 bits. An access outside of an array is a fault, and a
loop that has not ended within some number of turns is still running. -/

namespace ProcessChain.Sha256

inductive Execution (α : Type)
  | running
  | fault
  | done (value : α)

def Execution.andThen {α β : Type} (first : Execution α) (next : α → Execution β) : Execution β :=
  match first with
  | .running => .running
  | .fault => .fault
  | .done value => next value

/-- A read outside of an array, or a write there, has no result. -/
def store {α : Type} (cells : List α) (index : Nat) (value : α) : Option (List α) :=
  if index < cells.length then some (cells.set index value) else none

/-- `SHA256_CTX` -/
structure ContextMemory where
  data : Bytes
  datalen : UInt32
  bitlen : UInt64
  state : Words

/-- The first 16 words of the schedule; `j` is four times `i`. -/
def loadWords (data : Bytes) (i j : Nat) (m : List UInt32) : Option (List UInt32) :=
  if i < 16 then do
    let a ← data[j]?
    let b ← data[j + 1]?
    let c ← data[j + 2]?
    let d ← data[j + 3]?
    loadWords data (i + 1) (j + 4)
      (← store m i ((a.toUInt32 <<< 24) ||| (b.toUInt32 <<< 16) ||| (c.toUInt32 <<< 8) ||| d.toUInt32))
  else some m
termination_by 16 - i

def extendWords (i : Nat) (m : List UInt32) : Option (List UInt32) :=
  if i < 64 then do
    let a ← m[i - 2]?
    let b ← m[i - 7]?
    let c ← m[i - 15]?
    let d ← m[i - 16]?
    extendWords (i + 1) (← store m i (sig1 a + b + sig0 c + d))
  else some m
termination_by 64 - i

def roundLoop (m : List UInt32) (i : Nat) (words : Words) : Option Words :=
  if i < 64 then do roundLoop m (i + 1) (round words (← k[i]?) (← m[i]?))
  else some words
termination_by 64 - i

/-- `m` is what the array of words on the stack holds before. -/
def transformInMemory (m : List UInt32) (state : Words) (data : Bytes) : Option Words := do
  let m ← extendWords 16 (← loadWords data 0 0 m)
  let last ← roundLoop m 0 state
  return ⟨state.a + last.a, state.b + last.b, state.c + last.c, state.d + last.d,
    state.e + last.e, state.f + last.f, state.g + last.g, state.h + last.h⟩

/-- `sha256_init` leaves the buffer as it is. -/
def initInMemory (buffer : Bytes) : ContextMemory := ⟨buffer, 0, 0, sha256Init.state⟩

/-- One turn of the loop in `sha256_update`. -/
def updateTurn (m : List UInt32) (context : ContextMemory) (byte : UInt8) : Option ContextMemory := do
  let data ← store context.data context.datalen.toNat byte
  let datalen := context.datalen + 1
  if datalen = 64 then return ⟨data, 0, context.bitlen + 512, ← transformInMemory m context.state data⟩
  else return { context with data, datalen }

/-- The loop from turn `i` on, for at most `fuel` turns. The length is a `size_t`. -/
def updateLoop (m : List UInt32) (input : Bytes) : Nat → UInt32 → ContextMemory → Execution ContextMemory
  | 0, i, context => if i.toNat < input.length then .running else .done context
  | fuel + 1, i, context =>
    if i.toNat < input.length then
      match input[i.toNat]?.bind (updateTurn m context) with
      | none => .fault
      | some context => updateLoop m input fuel (i + 1) context
    else .done context

/-- `while (i < limit) ctx->data[i++] = 0x00` -/
def zeroLoop (limit i : Nat) (data : Bytes) : Option Bytes :=
  if i < limit then do zeroLoop limit (i + 1) (← store data i 0)
  else some data
termination_by limit - i

/-- The eight assignments of the length, from the last byte of the buffer down. -/
def storeLength (data : Bytes) (bitlen : UInt64) : Option Bytes := do
  let data ← store data 63 bitlen.toUInt8
  let data ← store data 62 (bitlen >>> 8).toUInt8
  let data ← store data 61 (bitlen >>> 16).toUInt8
  let data ← store data 60 (bitlen >>> 24).toUInt8
  let data ← store data 59 (bitlen >>> 32).toUInt8
  let data ← store data 58 (bitlen >>> 40).toUInt8
  let data ← store data 57 (bitlen >>> 48).toUInt8
  store data 56 (bitlen >>> 56).toUInt8

/-- One turn of the loop over the bytes of the words. -/
def outputTurn (state : Words) (hash : Bytes) (i : Nat) : Option Bytes := do
  let byte := fun word : UInt32 => ((word >>> (24 - i * 8).toUInt32) &&& 0xff).toUInt8
  let hash ← store hash i (byte state.a)
  let hash ← store hash (i + 4) (byte state.b)
  let hash ← store hash (i + 8) (byte state.c)
  let hash ← store hash (i + 12) (byte state.d)
  let hash ← store hash (i + 16) (byte state.e)
  let hash ← store hash (i + 20) (byte state.f)
  let hash ← store hash (i + 24) (byte state.g)
  store hash (i + 28) (byte state.h)

/-- `hash` is what the array for the digest holds before. -/
def finalInMemory (m : List UInt32) (context : ContextMemory) (hash : Bytes) : Option Bytes := do
  let i := context.datalen.toNat
  let started ← store context.data i 0x80
  let (state, data) ←
    if context.datalen < 56 then do pure (context.state, ← zeroLoop 56 (i + 1) started)
    else do
      let data ← zeroLoop 64 (i + 1) started
      let state ← transformInMemory m context.state data
      pure (state, List.replicate 56 0 ++ data.drop 56)
  let data ← storeLength data (context.bitlen + (context.datalen * 8).toUInt64)
  let state ← transformInMemory m state data
  [0, 1, 2, 3].foldlM (outputTurn state) hash

/-- What the arrays on the stack hold before. -/
structure StackMemory where
  buffer : Bytes
  words : List UInt32
  digest : Bytes
  bufferSize : buffer.length = 64
  wordsSize : words.length = 64
  digestSize : digest.length = 32

/-- `sha256_bytes`, with so much fuel for the loop over the message. -/
def sha256InMemory (memory : StackMemory) (fuel : Nat) (message : Bytes) : Execution Bytes :=
  let updated :=
    if message.length > 0 then updateLoop memory.words message fuel 0 (initInMemory memory.buffer)
    else .done (initInMemory memory.buffer)
  updated.andThen fun context =>
    match finalInMemory memory.words context memory.digest with
    | none => .fault
    | some digest => .done digest

end ProcessChain.Sha256
