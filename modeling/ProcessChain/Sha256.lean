import ProcessChain.CString

/-! The vendored SHA-256. Results about the chain hold for any hash function;
this one instantiates them. -/

namespace ProcessChain

abbrev Digest := Vector UInt8 32

/-- What the rest of the model knows of SHA-256. -/
abbrev HashFunction := Bytes → Digest

namespace Sha256

def rotRight (a b : UInt32) : UInt32 := (a >>> b) ||| (a <<< (32 - b))

def ch (x y z : UInt32) : UInt32 := (x &&& y) ^^^ (~~~x &&& z)
def maj (x y z : UInt32) : UInt32 := (x &&& y) ^^^ (x &&& z) ^^^ (y &&& z)
def ep0 (x : UInt32) : UInt32 := rotRight x 2 ^^^ rotRight x 13 ^^^ rotRight x 22
def ep1 (x : UInt32) : UInt32 := rotRight x 6 ^^^ rotRight x 11 ^^^ rotRight x 25
def sig0 (x : UInt32) : UInt32 := rotRight x 7 ^^^ rotRight x 18 ^^^ (x >>> 3)
def sig1 (x : UInt32) : UInt32 := rotRight x 17 ^^^ rotRight x 19 ^^^ (x >>> 10)

def k : List UInt32 := [
  0x428a2f98, 0x71374491, 0xb5c0fbcf, 0xe9b5dba5, 0x3956c25b, 0x59f111f1, 0x923f82a4, 0xab1c5ed5,
  0xd807aa98, 0x12835b01, 0x243185be, 0x550c7dc3, 0x72be5d74, 0x80deb1fe, 0x9bdc06a7, 0xc19bf174,
  0xe49b69c1, 0xefbe4786, 0x0fc19dc6, 0x240ca1cc, 0x2de92c6f, 0x4a7484aa, 0x5cb0a9dc, 0x76f988da,
  0x983e5152, 0xa831c66d, 0xb00327c8, 0xbf597fc7, 0xc6e00bf3, 0xd5a79147, 0x06ca6351, 0x14292967,
  0x27b70a85, 0x2e1b2138, 0x4d2c6dfc, 0x53380d13, 0x650a7354, 0x766a0abb, 0x81c2c92e, 0x92722c85,
  0xa2bfe8a1, 0xa81a664b, 0xc24b8b70, 0xc76c51a3, 0xd192e819, 0xd6990624, 0xf40e3585, 0x106aa070,
  0x19a4c116, 0x1e376c08, 0x2748774c, 0x34b0bcb5, 0x391c0cb3, 0x4ed8aa4a, 0x5b9cca4f, 0x682e6ff3,
  0x748f82ee, 0x78a5636f, 0x84c87814, 0x8cc70208, 0x90befffa, 0xa4506ceb, 0xbef9a3f7, 0xc67178f2]

structure Words where
  a : UInt32
  b : UInt32
  c : UInt32
  d : UInt32
  e : UInt32
  f : UInt32
  g : UInt32
  h : UInt32

/-- `data` holds the `datalen` bytes that wait for the next block. -/
structure Context where
  data : Bytes
  bitlen : UInt64
  state : Words

def bigEndianWords : Bytes → List UInt32
  | a :: b :: c :: d :: rest =>
    ((a.toUInt32 <<< 24) ||| (b.toUInt32 <<< 16) ||| (c.toUInt32 <<< 8) ||| d.toUInt32) :: bigEndianWords rest
  | _ => []

/-- The message schedule, latest word first. -/
def schedule : Nat → List UInt32 → List UInt32
  | 0, words => words
  | rounds + 1, words =>
    schedule rounds ((sig1 (words.getD 1 0) + words.getD 6 0 + sig0 (words.getD 14 0) + words.getD 15 0) :: words)

def round (words : Words) (constant message : UInt32) : Words :=
  let t1 := words.h + ep1 words.e + ch words.e words.f words.g + constant + message
  let t2 := ep0 words.a + maj words.a words.b words.c
  ⟨t1 + t2, words.a, words.b, words.c, words.d + t1, words.e, words.f, words.g⟩

def sha256Transform (state : Words) (data : Bytes) : Words :=
  let m := (schedule 48 (bigEndianWords data).reverse).reverse
  let last := (k.zip m).foldl (fun words (constant, message) => round words constant message) state
  ⟨state.a + last.a, state.b + last.b, state.c + last.c, state.d + last.d,
    state.e + last.e, state.f + last.f, state.g + last.g, state.h + last.h⟩

def sha256Init : Context :=
  ⟨[], 0, ⟨0x6a09e667, 0xbb67ae85, 0x3c6ef372, 0xa54ff53a, 0x510e527f, 0x9b05688c, 0x1f83d9ab, 0x5be0cd19⟩⟩

def sha256Update (context : Context) (input : Bytes) : Context :=
  input.foldl (fun context byte =>
    let data := context.data ++ [byte]
    if data.length = 64 then ⟨[], context.bitlen + 512, sha256Transform context.state data⟩
    else { context with data }) context

def bigEndianBytes (word : UInt32) : Bytes :=
  [(word >>> 24).toUInt8, (word >>> 16).toUInt8, (word >>> 8).toUInt8, word.toUInt8]

def lengthBytes (bits : UInt64) : Bytes :=
  [(bits >>> 56).toUInt8, (bits >>> 48).toUInt8, (bits >>> 40).toUInt8, (bits >>> 32).toUInt8,
    (bits >>> 24).toUInt8, (bits >>> 16).toUInt8, (bits >>> 8).toUInt8, bits.toUInt8]

def sha256Final (context : Context) : Digest :=
  let datalen := context.data.length
  let bitlen := context.bitlen + datalen.toUInt64 * 8
  let (state, padded) :=
    if datalen < 56 then (context.state, context.data ++ 0x80 :: List.replicate (55 - datalen) 0)
    else (sha256Transform context.state (context.data ++ 0x80 :: List.replicate (63 - datalen) 0), List.replicate 56 0)
  let last := sha256Transform state (padded ++ lengthBytes bitlen)
  ⟨(bigEndianBytes last.a ++ bigEndianBytes last.b ++ bigEndianBytes last.c ++ bigEndianBytes last.d ++
    bigEndianBytes last.e ++ bigEndianBytes last.f ++ bigEndianBytes last.g ++ bigEndianBytes last.h).toArray, rfl⟩

end Sha256

open Sha256 in
def sha256Bytes : HashFunction := fun data => sha256Final (sha256Update sha256Init data)

example : (sha256Bytes (ascii "abc")).toList.take 4 = [0xba, 0x78, 0x16, 0xbf] := by decide +kernel

end ProcessChain
