import ProcessChain.Lib.Separated
import ProcessChain.Lib.Numerals
import Mathlib.Data.List.TakeWhile

/-! C strings and the parts of the C library the processes use on them. Buffers
are lists of bytes; a `CString` is what the library sees of a buffer, so it can
never contain the terminating NUL. Character classes are those of the C locale. -/

namespace ProcessChain
open Lib

abbrev Bytes := List UInt8

def ascii (text : String) : Bytes := text.toList.map fun letter => letter.toNat.toUInt8

/-- A string literal is read off its letters, without decoding it. -/
theorem ascii_ofList (letters : List Char) :
    ascii (String.ofList letters) = letters.map fun letter => letter.toNat.toUInt8 := by
  rw [ascii, String.toList_ofList]

theorem ascii_append (first second : String) : ascii (first ++ second) = ascii first ++ ascii second := by
  simp only [ascii, String.toList_append, List.map_append]

structure CString where
  bytes : Bytes
  terminated : 0 ∉ bytes
deriving DecidableEq

namespace CString

@[ext] theorem ext {first second : CString} (same : first.bytes = second.bytes) : first = second := by
  cases first
  cases second
  simpa using same

/-- A buffer read up to its first NUL. -/
def ofMemory (memory : Bytes) : CString :=
  ⟨memory.takeWhile (· ≠ 0), fun member => by simpa using List.mem_takeWhile_imp member⟩

def text (literal : String) : CString := ofMemory (ascii literal)

def length (string : CString) : Nat := string.bytes.length

instance : Append CString where
  append first second := ⟨first.bytes ++ second.bytes, by simp [first.terminated, second.terminated]⟩

@[simp] theorem bytes_append (first second : CString) : (first ++ second).bytes = first.bytes ++ second.bytes := rfl

def join (separator : CString) : List CString → CString
  | [] => text ""
  | [last] => last
  | first :: next :: rest => first ++ separator ++ join separator (next :: rest)

theorem bytes_join (separator : CString) (strings : List CString) :
    (join separator strings).bytes = separator.bytes.intercalate (strings.map bytes) := by
  fun_induction join separator strings with
  | case1 => rfl
  | case2 last => simp
  | case3 first next rest ih => simp [ih]

@[simp] theorem ofMemory_bytes (string : CString) : ofMemory string.bytes = string := by
  apply ext
  exact List.takeWhile_eq_self_iff.mpr fun byte member =>
    decide_eq_true fun zero => string.terminated (zero ▸ member)

/-- A string is read from the memory that holds its characters and their NUL. -/
theorem ofMemory_written (string : CString) (rest : Bytes) : ofMemory (string.bytes ++ 0 :: rest) = string := by
  apply ext
  have clean : ∀ byte ∈ string.bytes, decide (byte ≠ 0) = true :=
    fun byte member => decide_eq_true fun zero => string.terminated (zero ▸ member)
  simp only [ofMemory]
  rw [List.takeWhile_append_of_pos clean]
  simp

theorem bytes_ofMemory {memory : Bytes} (clean : 0 ∉ memory) : (ofMemory memory).bytes = memory :=
  congrArg bytes (ofMemory_bytes ⟨memory, clean⟩)

end CString

def isSpace (byte : UInt8) : Bool := byte == 32 || (9 ≤ byte && byte ≤ 13)

def isDigit (byte : UInt8) : Bool := 48 ≤ byte && byte ≤ 57

def digitOf (base : Nat) (byte : UInt8) : Option Nat :=
  let digit :=
    if isDigit byte then byte.toNat - 48
    else if 97 ≤ byte && byte ≤ 122 then byte.toNat - 87
    else if 65 ≤ byte && byte ≤ 90 then byte.toNat - 55
    else base
  if digit < base then some digit else none

/-- The number at the start of a text as `strtoull` and `strtol` read it: spaces,
a sign, for base 16 an optional `0x`, then digits. -/
structure Numeral where
  negative : Bool
  magnitude : Nat
  rest : Bytes

def takeSign : Bytes → Bool × Bytes
  | 45 :: rest => (true, rest)
  | 43 :: rest => (false, rest)
  | text => (false, text)

/-- The mark `0x` belongs to the number only in front of a digit. -/
def dropHexMark (base : Nat) : Bytes → Bytes
  | 48 :: mark :: digit :: rest =>
    if base = 16 ∧ (mark = 120 ∨ mark = 88) ∧ (digitOf base digit).isSome then digit :: rest
    else 48 :: mark :: digit :: rest
  | text => text

def scanNumeral (base : Nat) (text : Bytes) : Option Numeral :=
  let (negative, unsigned) := takeSign (text.dropWhile isSpace)
  let body := dropHexMark base unsigned
  let digits := body.takeWhile fun byte => (digitOf base byte).isSome
  if digits = [] then none
  else some ⟨negative, numeral base (digits.filterMap (digitOf base)), body.drop digits.length⟩

def ullongMax : Nat := 2 ^ 64 - 1

/-- The value of `strtoull`, which saturates, and whether it sets `ERANGE`. -/
def Numeral.toULongLong (number : Numeral) : UInt64 × Bool :=
  if ullongMax < number.magnitude then (ullongMax.toUInt64, true)
  else (if number.negative then - number.magnitude.toUInt64 else number.magnitude.toUInt64, false)

def longMax : Int := 2 ^ 63 - 1

/-- The value of `strtol`, or `none` where it sets `ERANGE`. -/
def Numeral.toLong (number : Numeral) : Option Int :=
  let value : Int := if number.negative then -number.magnitude else number.magnitude
  if value < -longMax - 1 ∨ longMax < value then none else some value

/-- `sscanf` with `%llu`. -/
def scanUnsigned (text : Bytes) : Option UInt64 :=
  (scanNumeral 10 text).map fun number => number.toULongLong.1

/-- `sscanf` with `%64s`. -/
def scanWord (width : Nat) (text : Bytes) : Option CString :=
  let word := ((text.dropWhile isSpace).takeWhile fun byte => !isSpace byte).take width
  if word = [] then none else some (CString.ofMemory word)

/-- The text after a literal word at the beginning of a `sscanf` format. -/
def afterWord (word text : Bytes) : Option Bytes :=
  if word <+: text then some (text.drop word.length) else none

/-- `%llu` and, for numbers that are not negative, `%ld`. -/
def decimal (value : Nat) : Bytes := (Nat.toDigits 10 value).map fun digit => digit.toNat.toUInt8

def hexDigit (digit : Nat) : UInt8 := (ascii "0123456789abcdef").getD digit 0

theorem hexDigit_ne_zero : ∀ digit < 16, hexDigit digit ≠ 0 := by decide

/-- `%016` with `PRIx64`. -/
@[irreducible] def hex16 (value : UInt64) : CString :=
  ⟨(fixedDigits 16 16 value.toNat).map hexDigit, by
    simp only [List.mem_map, not_exists, not_and]
    exact fun digit member => hexDigit_ne_zero digit (fixedDigits_lt (by decide) _ _ digit member)⟩

theorem hex16_bytes (value : UInt64) : (hex16 value).bytes = (fixedDigits 16 16 value.toNat).map hexDigit := by
  rw [hex16]

@[simp] theorem hex16_length (value : UInt64) : (hex16 value).length = 16 := by
  simp only [CString.length, hex16_bytes, List.length_map, fixedDigits_length]

/-- `strtok_r` with the delimiter `"\n"`. -/
def strtokLines (text : CString) : List CString := (tokens 10 text.bytes).map CString.ofMemory

end ProcessChain
